import MigrationAudit.Proofs.Effective
import MigrationAudit.Proofs.NearestRoot
import MigrationAudit.Proofs.RealAddress

namespace MigrationAudit

/-- What a search finds hangs only on the elements that it comes to. -/
theorem find?_congr_of_reached {α : Type} {p q : α → Bool} {l : List α}
    (h : ∀ before a after, l = before ++ a :: after → (∀ b ∈ before, p b = false) → q a = p a) :
    l.find? q = l.find? p := by
  induction l with
  | nil => rfl
  | cons a l ih =>
    have hfirst : q a = p a := h [] a l rfl fun b hb => absurd hb List.not_mem_nil
    rw [List.find?_cons, List.find?_cons, hfirst]
    cases hp : p a with
    | true => rfl
    | false =>
      apply ih
      intro before b after hl hbefore
      apply h (a :: before) b after (by rw [hl, List.cons_append])
      exact List.forall_mem_cons.mpr ⟨hp, hbefore⟩

/-- Of two places in a list, either one comes before the other or they are the same. -/
theorem mem_of_append_cons_eq {α : Type} {a b : α} {before after before' after' : List α}
    (h : before ++ a :: after = before' ++ b :: after') : a ∈ before' ∨ a = b ∨ b ∈ before := by
  rcases List.append_eq_append_iff.mp h with ⟨c, hbefore, hrest⟩ | ⟨c, hbefore, hrest⟩
  · cases c with
    | nil =>
      cases hrest
      exact .inr (.inl rfl)
    | cons first c =>
      cases hrest
      exact .inl (hbefore ▸ List.mem_append_cons_self)
  · cases c with
    | nil =>
      cases hrest
      exact .inr (.inl rfl)
    | cons first c =>
      cases hrest
      exact .inr (.inr (hbefore ▸ List.mem_append_cons_self))

namespace Settings

variable {tree tree' : FileTree} {start root : Path} {name mark : String}

def readAs (name : String) : String → Except ConfigFault Preferences :=
  if Text.endsWith name ".toml" then Toml.parse else Yaml.parse

theorem configNames_eq : configNames = fileNames.map fun name => (name, readAs name) := by
  have htoml : Text.endsWith "droidmig.toml" ".toml" := by decide
  have hyaml : Text.endsWith "droidmig.yaml" ".toml" = false := by decide
  have hyml : Text.endsWith "droidmig.yml" ".toml" = false := by decide
  simp [configNames, fileNames, readAs, htoml, hyaml, hyml]

/-- The settings file that is tried in a directory: those that go before it are not there. -/
structure IsFirstConfig (tree : FileTree) (root : Path) (name : String) : Prop where
  earlier : ∃ before after, fileNames = before ++ name :: after ∧
    ∀ n ∈ before, tree.holds (root.join ⟨n⟩) = false
  there : tree.holds (root.join ⟨name⟩)

theorem load?_eq (tree : FileTree) (root : Path) :
    load? tree root = match fileNames.find? fun name => tree.holds (root.join ⟨name⟩) with
      | some name => match tree.readText (root.join ⟨name⟩) with
        | .error e => .error (.unreadable (root.join ⟨name⟩).text e)
        | .ok text => match readAs name text with
          | .error fault => .error (.badConfig (root.join ⟨name⟩).text fault.message)
          | .ok preferences => .ok (some (root.join ⟨name⟩, preferences))
      | none => .ok none := by
  unfold load?
  rw [configNames_eq, List.find?_map]
  simp only [Function.comp_def]
  cases fileNames.find? fun name => tree.holds (root.join ⟨name⟩) with
  | none => rfl
  | some name => rfl

theorem load?_of_absent
    (h : ∀ name ∈ fileNames, tree.holds (root.join ⟨name⟩) = false) :
    load? tree root = .ok none := by
  rw [load?_eq, List.find?_eq_none.mpr (by simpa using h)]

theorem load?_of_not_isRoot (h : isRoot tree root = false) : load? tree root = .ok none := by
  apply load?_of_absent
  intro name hname
  apply (Bool.not_eq_true _).mp
  intro hholds
  exact isRoot_eq_false_iff.mp h ⟨name, List.mem_append_left [".git"] hname, hholds⟩

theorem IsFirstConfig.find?_eq (h : IsFirstConfig tree root name) :
    (fileNames.find? fun name => tree.holds (root.join ⟨name⟩)) =
      some name := by
  obtain ⟨before, after, horder, hbefore⟩ := h.earlier
  exact List.find?_eq_some_iff_append.mpr ⟨h.there, before, after, horder, by simpa using hbefore⟩

/-- A mark is looked for in a directory: no directory nearer to the start is marked, and no mark
that goes before it is there. -/
structure IsConsulted (tree : FileTree) (start d : Path) (mark : String) : Prop where
  direct : d.IsDirect
  above : d.names <+: start.names
  nearer : ∀ e : Path, e.IsDirect → e.names <+: start.names → d.names.length < e.names.length →
    ¬IsMarked tree e
  earlier : ∃ before after, fileNames ++ [".git"] = before ++ mark :: after ∧
    ∀ m ∈ before, tree.holds (d.join ⟨m⟩) = false

namespace IsConsulted

variable {d : Path}

theorem isName (h : IsConsulted tree start d mark) : Path.IsName mark := by
  obtain ⟨before, after, hmarks, -⟩ := h.earlier
  apply isName_of_mem_rootMarks mark
  rw [show rootMarks = before ++ mark :: after from hmarks]
  exact List.mem_append_cons_self

theorem names_of_realAddress? (h : IsConsulted tree start d mark) {t : FileTree}
    (plain : t.root.Plain) {a : List String} (ha : t.realAddress? (d.join ⟨mark⟩) = some a) :
    a = d.names ++ [mark] := by
  obtain ⟨hdirect, hnames⟩ := h.direct.join_segment h.isName.no_slash h.isName.not_parent
  rw [FileTree.names_of_realAddress? plain hdirect ha, hnames]
  apply congrArg (d.names ++ ·)
  exact Path.namesIn_cons_of_kept (not_or.mpr ⟨h.isName.not_empty, h.isName.not_current⟩) []

/-- No mark is looked for above a marked directory. -/
theorem length_le (h : IsConsulted tree start d mark) (hroot : IsNearest tree start root)
    (hmarked : IsMarked tree root) : root.names.length ≤ d.names.length := by
  apply Nat.le_of_not_lt
  intro hlt
  exact h.nearer root hroot.direct hroot.above hlt hmarked

/-- No mark is looked for after one that is there. -/
theorem not_mem_after (h : IsConsulted tree start d mark) {before after : List String}
    (hmarks : fileNames ++ [".git"] = before ++ name :: after)
    (hthere : tree.holds (d.join ⟨name⟩)) : mark ∉ after := by
  obtain ⟨before', after', hmarks', habsent⟩ := h.earlier
  have hdistinct : (fileNames ++ [".git"]).Nodup := by decide
  rw [hmarks] at hdistinct hmarks'
  obtain ⟨-, hdistinct, hapart⟩ := List.nodup_append.mp hdistinct
  intro hafter
  rcases mem_of_append_cons_eq hmarks' with hname | rfl | hbefore
  · rw [habsent name hname] at hthere
    cases hthere
  · exact (List.nodup_cons.mp hdistinct).1 hafter
  · exact hapart mark hbefore mark (List.mem_cons_of_mem _ hafter) rfl

end IsConsulted

section Congr

variable (direct : start.IsDirect)
include direct

theorem isConsulted_of_reached {d : Path} {before after : List Path} {earlier later : List String}
    (hlist : start :: start.ancestors = before ++ d :: after)
    (hbefore : ∀ e ∈ before, isRoot tree e = false) (hmarks : rootMarks = earlier ++ mark :: later)
    (hearlier : ∀ m ∈ earlier, tree.holds (d.join ⟨m⟩) = false) :
    IsConsulted tree start d mark := by
  obtain ⟨-, hdirect, hbelow⟩ := mem_of_searched direct hlist
  exact ⟨hdirect, hbelow, fun e => not_isMarked_of_nearer direct hlist hbefore, earlier,
    later, hmarks, hearlier⟩

variable (hholds : ∀ d mark, IsConsulted tree start d mark →
  tree'.holds (d.join ⟨mark⟩) = tree.holds (d.join ⟨mark⟩))
include hholds

theorem detectRoot_congr : detectRoot tree' start = detectRoot tree start := by
  have hfind : (start :: start.ancestors).find? (isRoot tree') =
      (start :: start.ancestors).find? (isRoot tree) := by
    apply find?_congr_of_reached
    intro before d after hlist hbefore
    rw [isRoot_eq_isSome, isRoot_eq_isSome]
    apply congrArg Option.isSome
    apply find?_congr_of_reached
    intro earlier mark later hmarks hearlier
    exact hholds d mark (isConsulted_of_reached direct hlist hbefore hmarks hearlier)
  rw [detectRoot, detectRoot, hfind]

variable (hread : ∀ d mark, IsConsulted tree start d mark →
  tree'.read (d.join ⟨mark⟩) = tree.read (d.join ⟨mark⟩))
include hread

theorem load?_detectRoot_congr :
    load? tree' (detectRoot tree start) = load? tree (detectRoot tree start) := by
  -- Whatever is tried in the root is consulted: the search has passed unmarked directories only.
  obtain ⟨before, after, hlist, hbefore⟩ := exists_searched tree start
  have hconsulted (earlier later : List String) (name : String)
      (hnames : fileNames = earlier ++ name :: later)
      (hearlier : ∀ n ∈ earlier, tree.holds ((detectRoot tree start).join ⟨n⟩) = false) :
      IsConsulted tree start (detectRoot tree start) name := by
    have hmarks : rootMarks = earlier ++ name :: (later ++ [".git"]) := by
      rw [← List.cons_append, ← List.append_assoc, ← hnames]
      rfl
    exact isConsulted_of_reached direct hlist hbefore hmarks hearlier
  have hfind : (fileNames.find? fun name => tree'.holds ((detectRoot tree start).join ⟨name⟩)) =
      fileNames.find? fun name => tree.holds ((detectRoot tree start).join ⟨name⟩) := by
    apply find?_congr_of_reached
    intro earlier name later hnames hearlier
    exact hholds _ _ (hconsulted earlier later name hnames hearlier)
  rw [load?_eq, load?_eq, hfind]
  cases hfound : fileNames.find? fun name => tree.holds ((detectRoot tree start).join ⟨name⟩) with
  | none => rfl
  | some name =>
    obtain ⟨-, earlier, later, hnames, hearlier⟩ := List.find?_eq_some_iff_append.mp hfound
    have hsame := hread _ _ (hconsulted earlier later name hnames (by simpa using hearlier))
    simp only [FileTree.readText, hsame]

theorem value_resolve_congr {o : Overrides} (hroot : o.root = some start) :
    (resolve tree' o).value = (resolve tree o).value := by
  rw [value_resolve, value_resolve, rootOf_of_root tree' hroot, rootOf_of_root tree hroot,
    detectRoot_congr direct hholds, load?_detectRoot_congr direct hholds hread]

end Congr

/-- How the settings of a scan from `start` come about. -/
structure ComeFrom (tree : FileTree) (start root : Path) : Prop where
  nearest : IsNearest tree start root
  absent : (∀ name ∈ fileNames, tree.holds (root.join ⟨name⟩) = false) →
    ∀ o, o.root = some start → (resolve tree o).value = .ok (effective root o none)
  usable : ∀ name text preferences, IsFirstConfig tree root name →
    tree.readText (root.join ⟨name⟩) = .ok text → readAs name text = .ok preferences →
      ∀ o, o.root = some start →
        (resolve tree o).value = .ok (effective root o (some (root.join ⟨name⟩, preferences)))
  /-- No other file and no option stands in for a settings file that cannot be used. -/
  unreadable : ∀ name e, IsFirstConfig tree root name →
    tree.readText (root.join ⟨name⟩) = .error e →
    ∀ o, o.root = some start →
      (resolve tree o).value = .error (.unreadable (root.join ⟨name⟩).text e)
  malformed : ∀ name text fault, IsFirstConfig tree root name →
    tree.readText (root.join ⟨name⟩) = .ok text → readAs name text = .error fault →
      ∀ o, o.root = some start →
        (resolve tree o).value = .error (.badConfig (root.join ⟨name⟩).text fault.message)
  /-- Files may change, come or go wherever no mark is looked for. -/
  unaffected : ∀ changed tree', FileTree.SameBesides changed tree tree' →
    (∀ d mark a, IsConsulted tree start d mark → changed a →
      tree.realAddress? (d.join ⟨mark⟩) ≠ some a ∧ tree'.realAddress? (d.join ⟨mark⟩) ≠ some a) →
    detectRoot tree' start = root ∧
      ∀ o, o.root = some start → (resolve tree' o).value = (resolve tree o).value
  /-- Where there are no links, the names of a path are the only address that it leads to. -/
  unaffected_plain : ∀ changed tree', FileTree.SameBesides changed tree tree' →
    tree.root.Plain → tree'.root.Plain →
    (∀ d mark, IsConsulted tree start d mark → ¬changed (d.names ++ [mark])) →
    detectRoot tree' start = root ∧
      ∀ o, o.root = some start → (resolve tree' o).value = (resolve tree o).value
  /-- No mark is looked for above the root, nor after a settings file that is there. -/
  beyond : ∀ d mark, IsConsulted tree start d mark →
    (IsMarked tree root → root.names.length ≤ d.names.length) ∧
      ∀ name before after, fileNames = before ++ name :: after → tree.holds (root.join ⟨name⟩) →
        d.names = root.names → mark ∉ after ++ [".git"]
  output : ∀ o value, (resolve tree { o with output := some value }).value =
    (resolve tree o).value.map fun s => { s with output := OutputMode.parse value }
  view : ∀ o value, (resolve tree { o with view := some value }).value =
    (resolve tree o).value.map fun s => { s with view := (View.parse value).value }
  failOn : ∀ o value, (resolve tree { o with failOn := some value }).value =
    (resolve tree o).value.map fun s => { s with failOn := Severity.parse? value }

/-- The settings of a scan come from the nearest marked directory at or above its start and the
first settings file there alone, save what the command line sets. -/
theorem settings_come_from_nearest (tree : FileTree) (start : Path) (direct : start.IsDirect) :
    ComeFrom tree start (detectRoot tree start) := by
  have hload (config : Except Failure (Option (Path × Preferences)))
      (hconfig : load? tree (detectRoot tree start) = config) (o : Overrides)
        (hroot : o.root = some start) :
      (resolve tree o).value = config.map (effective (detectRoot tree start) o) := by
    rw [value_resolve, rootOf_of_root tree hroot, hconfig]
  have unaffected (changed : List String → Prop) (tree' : FileTree)
      (hsame : FileTree.SameBesides changed tree tree')
      (hkept : ∀ d mark a, IsConsulted tree start d mark → changed a →
        tree.realAddress? (d.join ⟨mark⟩) ≠ some a ∧ tree'.realAddress? (d.join ⟨mark⟩) ≠ some a) :
      detectRoot tree' start = detectRoot tree start ∧
        ∀ o, o.root = some start → (resolve tree' o).value = (resolve tree o).value := by
    have hholds (d : Path) (mark : String) (hconsulted : IsConsulted tree start d mark) :=
      hsame.holds_eq (fun a ha => (hkept d mark a hconsulted ha).1)
        (fun a ha => (hkept d mark a hconsulted ha).2)
    have hread (d : Path) (mark : String) (hconsulted : IsConsulted tree start d mark) :=
      hsame.read_eq (fun a ha => (hkept d mark a hconsulted ha).1)
        (fun a ha => (hkept d mark a hconsulted ha).2)
    exact ⟨detectRoot_congr direct hholds, fun o => value_resolve_congr direct hholds hread⟩
  have nearest := isNearest_detectRoot direct tree
  refine ⟨nearest, ?absent, ?usable, ?unreadable, ?malformed, unaffected, ?plain, ?beyond,
    value_resolve_output tree, value_resolve_view tree, value_resolve_failOn tree⟩
  case absent =>
    intro habsent
    exact hload (.ok none) (load?_of_absent habsent)
  case usable =>
    intro name text preferences hfirst htext hparse
    apply hload (.ok (some ((detectRoot tree start).join ⟨name⟩, preferences)))
    simp only [load?_eq, hfirst.find?_eq, htext, hparse]
  case unreadable =>
    intro name e hfirst htext
    apply hload (.error (.unreadable ((detectRoot tree start).join ⟨name⟩).text e))
    simp only [load?_eq, hfirst.find?_eq, htext]
  case malformed =>
    intro name text fault hfirst htext hparse
    apply hload (.error (.badConfig ((detectRoot tree start).join ⟨name⟩).text fault.message))
    simp only [load?_eq, hfirst.find?_eq, htext, hparse]
  case plain =>
    intro changed tree' hsame plain plain' hkept
    apply unaffected changed tree' hsame
    intro d mark a hconsulted ha
    have hne : a ≠ d.names ++ [mark] := by
      rintro rfl
      exact hkept d mark hconsulted ha
    exact ⟨fun haddress => hne (hconsulted.names_of_realAddress? plain haddress),
      fun haddress => hne (hconsulted.names_of_realAddress? plain' haddress)⟩
  case beyond =>
    intro d mark hconsulted
    refine ⟨hconsulted.length_le nearest, ?_⟩
    intro name before after hnames hthere hsame
    have hmarks : fileNames ++ [".git"] = before ++ name :: (after ++ [".git"]) := by
      rw [hnames, List.append_assoc, List.cons_append]
    have hname : name ∈ rootMarks := by
      rw [show rootMarks = before ++ name :: (after ++ [".git"]) from hmarks]
      exact List.mem_append_cons_self
    apply hconsulted.not_mem_after hmarks
    rw [FileTree.holds_join_congr hconsulted.direct nearest.direct hsame
      (isName_of_mem_rootMarks name hname)]
    exact hthere

def markedTree : FileTree where
  root := .directory [
    ("droidmig.toml", .file (some "fail_on = 'critical'".toUTF8)),
    ("w", .directory [(".git", .directory []), ("app", .directory []),
      ("droidmig.yml", .file none)])]
  workingDirectory := ⟨"/"⟩

theorem plain_markedTree : markedTree.root.Plain := by
  have hempty : (Node.directory []).Plain := .directory [] (by decide) (by decide) (by simp)
  have hscanned : (Node.directory
      [(".git", .directory []), ("app", .directory []), ("droidmig.yml", .file none)]).Plain :=
    .directory _ (by decide) (by decide) (by simpa using ⟨hempty, .file none⟩)
  exact .directory _ (by decide) (by decide) (by simpa using ⟨.file _, hscanned⟩)

/-- The search ends at the repository, and its settings file cannot be read. -/
theorem settings_come_from_nearest_repository :
    Path.IsDirect ⟨"/w/app"⟩ ∧ detectRoot markedTree ⟨"/w/app"⟩ = ⟨"/w"⟩ ∧
      ComeFrom markedTree ⟨"/w/app"⟩ ⟨"/w"⟩ := by
  have direct : Path.IsDirect ⟨"/w/app"⟩ := ⟨by decide, by decide⟩
  have hrepository : Path.IsDirect ⟨"/w"⟩ := ⟨by decide, by decide⟩
  have hunmarked : isRoot markedTree ⟨"/w/app"⟩ = false := by
    rw [isRoot_of_plain plain_markedTree direct]
    decide
  have hmarked : isRoot markedTree ⟨"/w"⟩ = true := by
    rw [isRoot_of_plain plain_markedTree hrepository]
    decide
  have hancestors : Path.ancestors ⟨"/w/app"⟩ = [⟨"/w"⟩, ⟨"/"⟩] := by decide
  have hroot : detectRoot markedTree ⟨"/w/app"⟩ = ⟨"/w"⟩ := by
    rw [detectRoot, hancestors, List.find?_cons, hunmarked, List.find?_cons, hmarked]
    rfl
  exact ⟨direct, hroot, hroot ▸ settings_come_from_nearest markedTree ⟨"/w/app"⟩ direct⟩

end Settings

end MigrationAudit
