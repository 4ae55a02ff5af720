import MigrationAudit.Catalog
import MigrationAudit.Proofs.RuleIsolation
import MigrationAudit.Proofs.WrittenWords

namespace MigrationAudit

theorem Text.occursIn_iff {word text : List Char} : occursIn word text ↔ word <:+: text := by
  induction text with
  | nil => simp [occursIn]
  | cons c rest ih => simp [occursIn, ih, List.infix_cons_iff]

theorem Advice.message?_eq_some_iff {a : Advice} {message : String} :
    a.message? = some message ↔ a = .fixed message := by
  cases a <;> simp [message?]

namespace Catalog

def wordRules : List (Rule × List String) :=
  [(photoPicker, ["ACTION_PICK", "MediaStore.Images", "MediaStore.Video"]),
   (edgeToEdge, ["WindowCompat.setDecorFitsSystemWindows", "android:fitsSystemWindows"]),
   (predictiveBack, ["onBackPressed", "OnBackPressedCallback"]),
   (notificationChanges, ["NotificationManager", "createNotificationChannel"]),
   (javaVersion, ["sourceCompatibility", "targetCompatibility", "JavaVersion"]),
   (cameraApi, ["Camera2", "CameraX", "MediaRecorder"]),
   (performanceHints, ["PerformanceHintManager", "PowerManager"]),
   (deprecatedApis, ["@Deprecated", ".setType(", "PackageManager.GET_META_DATA"]),
   (privateSpace, ["PackageManager.MATCH_HIDDEN_UNTIL_INSTALLED_COMPONENTS"]),
   (notificationExperience,
     ["NotificationManager", "NotificationCompat", "createNotificationChannel"]),
   (scopedStorage, ["Environment.getExternalStorageDirectory", "MediaStore.Files"]),
   (workProfile, ["DevicePolicyManager", "UserManager.isUserAGoat"])]

def MentionsJavaEight (text : String) : Prop :=
  "1.8".toList <:+: text.toList ∨ "JavaVersion.VERSION_1_8".toList <:+: text.toList

theorem source_wordRules : ∀ row ∈ wordRules, row.1.regex.source.toList = Text.written row.2 := by
  decide +kernel

/-- Though some have a stem in common, the words of one rule keep apart. -/
theorem keepApart_wordRules : ∀ row ∈ wordRules, Text.KeepApart row.2 := by decide +kernel

theorem pattern_wordRules {row : Rule × List String} (h : row ∈ wordRules) :
    row.1.regex.pattern = .ofWords row.2 := by
  have hread := Pattern.parse?_written (keepApart_wordRules row h).1 (source_wordRules row h)
  rw [row.1.regex.parse?_source] at hread
  exact Option.some.inj hread

theorem isFixed_wordRules :
    ∀ row ∈ wordRules, row.1.id ≠ javaVersion.id → row.1.advice.message?.isSome := by
  decide +kernel

theorem mem_rules_of_wordRules : ∀ row ∈ wordRules, row.1 ∈ rules := by
  simp [wordRules, rules]

theorem judgeJava_eq (text : String) (found : List Match) : ∃ words, words ≠ "" ∧ ∃ mentions : Bool,
    (mentions ↔ MentionsJavaEight text) ∧
      (judgeJava text found).value = .ok (if mentions then some words else none) := by
  refine ⟨"Consider updating to Java 17 features available in Android 15", by decide,
    javaEightMarks.any fun mark => Text.occursIn mark.toList text.toList, ?_, rfl⟩
  simp only [javaEightMarks, List.any_cons, List.any_nil, Bool.or_false, Bool.or_eq_true,
    Text.occursIn_iff, MentionsJavaEight]
  exact or_comm

/-- When a rule that looks for words raises its issue. -/
theorem issue?_wordRules {r : Rule} {words : List String} (h : (r, words) ∈ wordRules)
    (file text : String) :
    (r.findAll text ≠ [] ∧ (r.id = "java_version" → MentionsJavaEight text) →
        ∃ message, r.issue? file text = some (r.issueWith file text message)) ∧
      (¬(r.findAll text ≠ [] ∧ (r.id = "java_version" → MentionsJavaEight text)) →
        r.issue? file text = none) := by
  by_cases hfound : r.findAll text = []
  · exact ⟨fun h => absurd hfound h.1, fun _ => (Rule.Verdict.unmatched hfound).issue?_eq file⟩
  rw [and_iff_right hfound]
  by_cases hid : r.id = "java_version"
  · obtain rfl : r = javaVersion :=
      List.inj_on_of_nodup_map nodup_ids (mem_rules_of_wordRules _ h) (by simp [rules]) hid
    obtain ⟨words, hwords, mentions, hmentions, hvalue⟩ :=
      judgeJava_eq text (javaVersion.findAll text)
    rw [forall_prop_of_true hid, ← hmentions]
    cases mentions with
    | true =>
      refine ⟨fun _ => ⟨words, ?_⟩, fun hno => absurd rfl hno⟩
      exact (Rule.Verdict.advised judgeJava words hfound rfl hvalue hwords).issue?_eq file
    | false =>
      refine ⟨fun hyes => absurd hyes Bool.false_ne_true, fun _ => ?_⟩
      exact (Rule.Verdict.declined judgeJava hfound rfl hvalue).issue?_eq file
  · obtain ⟨message, hmessage⟩ := Option.isSome_iff_exists.mp (isFixed_wordRules _ h hid)
    refine ⟨fun _ => ⟨message, ?_⟩, fun hno => absurd (fun h => absurd h hid) hno⟩
    have hadvice := Advice.message?_eq_some_iff.mp hmessage
    exact (Rule.Verdict.fixed message hfound hadvice).issue?_eq file

/-- A rule that looks for words finds all places where one of them stands and nothing else, and
raises its one issue there; the rule about Java does so only if the text mentions Java 1.8. -/
theorem words_counted {r : Rule} {words : List String} (h : (r, words) ∈ wordRules)
    (file text : String) :
    (r.findAll text).map (·.whole.start) = Text.starts words text.toList ∧
      (0 < (Text.starts words text.toList).length ∧
          (r.id = "java_version" → MentionsJavaEight text) → ∃ i,
        (Issue.ofText rules file text).value.filter (fun i => i.id = r.id) = [i] ∧
          i.file = file ∧ i.occurrences = (Text.starts words text.toList).length) ∧
      (¬(0 < (Text.starts words text.toList).length ∧
          (r.id = "java_version" → MentionsJavaEight text)) →
        (Issue.ofText rules file text).value.filter (fun i => i.id = r.id) = []) := by
  have hstarts : (r.findAll text).map (·.whole.start) = Text.starts words text.toList := by
    rw [Rule.findAll, Regex.findAll, pattern_wordRules h]
    exact Pattern.starts_findAll (keepApart_wordRules _ h) text.toList
  have hlength : (Text.starts words text.toList).length = (r.findAll text).length := by
    rw [← hstarts, List.length_map]
  obtain ⟨hraised, hsilent⟩ := issue?_wordRules h file text
  rw [Catalog.value_ofText_filter_id (mem_rules_of_wordRules _ h), hlength, List.length_pos_iff]
  refine ⟨hstarts, fun hyes => ?_, fun hno => ?_⟩
  · obtain ⟨message, hmessage⟩ := hraised hyes
    rw [hmessage]
    exact ⟨_, rfl, rfl, rfl⟩
  · rw [hsilent hno]
    rfl

/-- Both words of a build file that asks for Java 1.8. -/
theorem words_counted_java :
    let words := ["sourceCompatibility", "targetCompatibility", "JavaVersion"]
    let text := "sourceCompatibility = JavaVersion.VERSION_1_8"
    (javaVersion, words) ∈ wordRules ∧ Text.starts words text.toList = [0, 22] ∧
      ∃ i,
        (Issue.ofText rules "build.gradle" text).value.filter (fun i => i.id = javaVersion.id) =
          [i] ∧ i.file = "build.gradle" ∧ i.occurrences = 2 := by
  intro words text
  have hrow : (javaVersion, words) ∈ wordRules := by simp [wordRules, words]
  have hstarts : Text.starts words text.toList = [0, 22] := by decide +kernel
  obtain ⟨-, hraised, -⟩ := words_counted hrow "build.gradle" text
  rw [hstarts] at hraised
  refine ⟨hrow, hstarts, hraised ⟨by decide, fun _ => .inr ?_⟩⟩
  exact Text.occursIn_iff.mp (by decide +kernel)

end Catalog

end MigrationAudit
