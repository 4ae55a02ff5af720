import MigrationAudit.Rule

namespace MigrationAudit.Catalog

/-- The API level of Android 15. -/
def targetLevel : Nat := 35

/-- Version numbers are 32-bit words. -/
def version? (digits : List Char) : Option Nat := (Text.natural? digits).filter (· < UInt32.size)

/-- Whether some declared target level is out of date. A number too large to be a version does not
count. -/
def anyOutdated (text : List Char) : List Match → Logged (Except JudgementError Bool)
  | [] => pure (.ok false)
  | m :: rest =>
    match m.group? 1 <|> m.group? 2 with
    | none => pure (.error (.missingGroup 1 (m.whole.text text)))
    | some digits => do
      let outdated ← match version? (digits.slice text) with
        | some version => pure (version < targetLevel : Bool)
        | none => do
          Logged.tell (.oddVersion (.notAVersion (digits.text text)))
          pure false
      return (← anyOutdated text rest).map (outdated || ·)

def judgeTarget : Judge := fun text found => do
  return (← anyOutdated text.toList found).map fun outdated =>
    if outdated then
      some s!"Consider updating targetSdkVersion to {targetLevel} for Android 15 compatibility"
    else none

/-- The marks of Java 1.8; the text is searched as it stands. -/
def javaEightMarks : List String := ["JavaVersion.VERSION_1_8", "1.8"]

def judgeJava : Judge := fun text _ =>
  pure <| .ok <|
    if javaEightMarks.any fun mark => Text.occursIn mark.toList text.toList then
      some "Consider updating to Java 17 features available in Android 15"
    else none

def targetSdk : Rule where
  id := "target_sdk_35"
  regex := .ofString "targetSdkVersion\\s+([0-9]+)|targetSdk\\s*=\\s*([0-9]+)" (by decide +kernel)
  severity := .critical
  title := "Target SDK Version Check"
  description := "Ensure your app targets Android 15 (API level 35) for full compatibility"
  advice := .conditional judgeTarget

def photoPicker : Rule where
  id := "photo_picker"
  regex := .ofString "ACTION_PICK|MediaStore\\.Images|MediaStore\\.Video" (by decide +kernel)
  severity := .warning
  title := "Photo/Video Access Changes"
  description := "Android 15 introduces enhanced security for partial photo and video access"
  advice := .fixed "Consider migrating to Photo Picker API for better user privacy"

def backgroundActivity : Rule where
  id := "background_activity"
  regex := .ofString "startActivity|startService.*BACKGROUND" (by decide +kernel)
  severity := .warning
  title := "Background Activity Restrictions"
  description := "Android 15 has stricter background activity launch restrictions"
  advice := .fixed "Review background activity launches and consider using PendingIntent"

def edgeToEdge : Rule where
  id := "edge_to_edge"
  regex := .ofString "WindowCompat\\.setDecorFitsSystemWindows|android:fitsSystemWindows"
    (by decide +kernel)
  severity := .info
  title := "Edge-to-edge Enforcement"
  description := "Android 15 enforces edge-to-edge display for apps targeting API 35+"
  advice := .fixed "Ensure proper edge-to-edge implementation"

def predictiveBack : Rule where
  id := "predictive_back"
  regex := .ofString "onBackPressed|OnBackPressedCallback" (by decide +kernel)
  severity := .info
  title := "Predictive Back Gesture"
  description := "Update back navigation handling for improved predictive back gesture"
  advice := .fixed "Consider implementing OnBackInvokedCallback for better user experience"

def notificationChanges : Rule where
  id := "notification_changes"
  regex := .ofString "NotificationManager|createNotificationChannel" (by decide +kernel)
  severity := .info
  title := "Notification Experience Updates"
  description := "Android 15 introduces new notification features and behaviors"
  advice := .fixed "Review notification implementation for Android 15 enhancements"

def javaVersion : Rule where
  id := "java_version"
  regex := .ofString "sourceCompatibility|targetCompatibility|JavaVersion" (by decide +kernel)
  severity := .warning
  title := "Java Version Compatibility"
  description := "Android 15 includes OpenJDK 17 features and API updates"
  advice := .conditional judgeJava

def cameraApi : Rule where
  id := "camera_api"
  regex := .ofString "Camera2|CameraX|MediaRecorder" (by decide +kernel)
  severity := .info
  title := "Camera and Media Improvements"
  description := "Android 15 includes camera and media performance improvements"
  advice := .fixed "Review camera implementation for potential optimizations"

def performanceHints : Rule where
  id := "performance_hints"
  regex := .ofString "PerformanceHintManager|PowerManager" (by decide +kernel)
  severity := .info
  title := "Dynamic Performance Framework"
  description := "Leverage Android 15 dynamic performance framework enhancements"
  advice := .fixed "Consider implementing performance hints for better resource management"

def deprecatedApis : Rule where
  id := "deprecated_apis"
  regex := .ofString "@Deprecated|\\.setType\\(|PackageManager\\.GET_META_DATA" (by decide +kernel)
  severity := .warning
  title := "Deprecated API Usage"
  description := "Some APIs may be deprecated or changed in Android 15"
  advice := .fixed "Review deprecated API usage and migrate to recommended alternatives"

def privateSpace : Rule where
  id := "private_space"
  regex := .ofString "PackageManager\\.MATCH_HIDDEN_UNTIL_INSTALLED_COMPONENTS" (by decide +kernel)
  severity := .info
  title := "Private Space Functionality"
  description := "Android 15 introduces private space functionality"
  advice := .fixed "Consider how private space affects app visibility and behavior"

def notificationExperience : Rule where
  id := "notification_experience"
  regex := .ofString "NotificationManager|NotificationCompat|createNotificationChannel"
    (by decide +kernel)
  severity := .info
  title := "Notification Experience Updates"
  description := "Android 15 introduces new notification experience improvements"
  advice := .fixed "Review notification implementation for Android 15 enhancements"

def scopedStorage : Rule where
  id := "scoped_storage"
  regex := .ofString "Environment\\.getExternalStorageDirectory|MediaStore\\.Files"
    (by decide +kernel)
  severity := .warning
  title := "Scoped Storage Compliance"
  description := "Ensure compliance with scoped storage requirements"
  advice := .fixed "Use MediaStore APIs or Storage Access Framework for file operations"

def permissionChanges : Rule where
  id := "permission_changes"
  regex := .ofString "<uses-permission.*READ_EXTERNAL_STORAGE|WRITE_EXTERNAL_STORAGE"
    (by decide +kernel)
  severity := .warning
  title := "Storage Permission Changes"
  description := "Storage permissions behavior may change in Android 15"
  advice := .fixed "Review storage permissions and consider granular photo/video permissions"

def workProfile : Rule where
  id := "work_profile"
  regex := .ofString "DevicePolicyManager|UserManager\\.isUserAGoat" (by decide +kernel)
  severity := .info
  title := "Work Profile Enhancements"
  description := "Android 15 includes work profile and enterprise feature updates"
  advice := .fixed "Review work profile compatibility and enterprise features"

/-- All rules, in the order in which the issues of a file are reported. -/
def rules : List Rule :=
  [targetSdk, photoPicker, backgroundActivity, edgeToEdge, predictiveBack, notificationChanges,
   javaVersion, cameraApi, performanceHints, deprecatedApis, privateSpace,
   notificationExperience, scopedStorage, permissionChanges, workProfile]

def find? (id : String) : Option Rule := rules.find? (·.id = id)

end MigrationAudit.Catalog
