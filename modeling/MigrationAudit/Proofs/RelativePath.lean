import MigrationAudit.Proofs.PathNames

namespace MigrationAudit

namespace PathStep

theorem detour?_names (target base : List String) :
    detour? (target.map name) (base.map name) = some (base.map (fun _ => parent) ++
      target.map name) := by
  cases base with
  | nil => cases target <;> rfl
  | cons b base =>
    have hback : ((b :: base).map name).map (fun _ => parent) = (b :: base).map fun _ => parent :=
      List.map_map
    rw [← hback]
    cases target with
    | nil =>
      rw [List.map_nil, List.append_nil]
      rfl
    | cons a target => rfl

theorem filterMap_ofSegment? {segments : List String} (h : ".." ∉ segments) :
    segments.filterMap ofSegment? = (Path.namesIn segments).map name := by
  induction segments with
  | nil => rfl
  | cons s segments ih =>
    obtain ⟨hs, hrest⟩ := not_or.mp (mt List.mem_cons.mpr h)
    rw [List.filterMap_cons, ih hrest]
    by_cases hskip : s = "" ∨ s = "."
    · rw [Path.namesIn_cons_of_skipped hskip, ofSegment?, if_pos hskip]
    · rw [Path.namesIn_cons_of_kept hskip, ofSegment?, if_neg hskip, if_neg (Ne.symm hs),
        List.map_cons]

def texts (steps : List PathStep) : List String := (steps.filter (· ≠ current)).map text

theorem texts_append (a b : List PathStep) : texts (a ++ b) = texts a ++ texts b := by
  simp [texts]

theorem texts_names (names : List String) : texts (names.map name) = names := by
  rw [texts, List.filter_eq_self.mpr (by simp), List.map_map]
  exact List.map_id _

theorem texts_parents (base : List String) :
    texts (base.map fun _ => parent) = base.map fun _ => ".." := by
  rw [texts, List.filter_eq_self.mpr (by simp), List.map_map]
  rfl

end PathStep

namespace Path

/-- The segments from a directory to a target, both given by their names from the root on: back to
where the two part, then down. -/
def way : (base target : List String) → List String
  | b :: base, t :: target =>
    if b = t then way base target else (b :: base).map (fun _ => "..") ++ t :: target
  | base, target => base.map (fun _ => "..") ++ target

def relativeText (base target : List String) : String := "/".intercalate (way base target)

/-- The way leaves out what base and target begin with. -/
theorem exists_way_eq (base target : List String) :
    ∃ common above rest, base = common ++ above ∧ target = common ++ rest ∧
      way base target = above.map (fun _ => "..") ++ rest := by
  induction base generalizing target with
  | nil => exact ⟨[], [], target, rfl, rfl, by simp [way]⟩
  | cons b base ih =>
    cases target with
    | nil => exact ⟨[], b :: base, [], rfl, rfl, by simp [way]⟩
    | cons t target =>
      by_cases hbt : b = t
      · obtain ⟨common, above, rest, hbase, htarget, hway⟩ := ih target
        refine ⟨b :: common, above, rest, by simp [hbase], by simp [hbt, htarget], ?_⟩
        simp [way, hbt, hway]
      · exact ⟨[], b :: base, t :: target, rfl, rfl, by simp [way, hbt]⟩

/-- The number of steps back tells where the way parts from the base. -/
theorem way_inj {base a b : List String} (ha : ".." ∉ a) (hb : ".." ∉ b)
    (h : way base a = way base b) : a = b := by
  obtain ⟨common, above, rest, hbase, rfl, hway⟩ := exists_way_eq base a
  obtain ⟨common', above', rest', hbase', rfl, hway'⟩ := exists_way_eq base b
  have hrest : ".." ∉ rest := fun hmem => ha (List.mem_append_right _ hmem)
  have hrest' : ".." ∉ rest' := fun hmem => hb (List.mem_append_right _ hmem)
  have hspelled : above.map (fun _ => "..") ++ rest = above'.map (fun _ => "..") ++ rest' := by
    rw [← hway, ← hway', h]
  -- Neither target holds a step back, so all of them lead out of the base.
  have hback : above.length = above'.length := by
    have hcount := congrArg (List.count "..") hspelled
    simpa [List.count_append, List.count_eq_zero_of_not_mem hrest,
      List.count_eq_zero_of_not_mem hrest', List.map_const', List.count_replicate] using hcount
  obtain ⟨-, rfl⟩ := List.append_inj hspelled (by simpa using hback)
  obtain ⟨rfl, -⟩ := List.append_inj' (hbase.symm.trans hbase') hback
  rfl

theorem between?_names (target base : List String) :
    ∃ steps, PathStep.between? (target.map .name) (base.map .name) = some steps ∧
      PathStep.texts steps = way base target := by
  induction base generalizing target with
  | nil =>
    refine ⟨target.map .name, ?_, by simp [PathStep.texts_names, way]⟩
    cases target <;> simp [PathStep.between?, PathStep.detour?]
  | cons b base ih =>
    have hdetour := PathStep.detour?_names target (b :: base)
    have htexts : PathStep.texts (((b :: base).map fun _ => PathStep.parent) ++ target.map .name) =
        ((b :: base).map fun _ => "..") ++ target := by
      rw [PathStep.texts_append, PathStep.texts_parents, PathStep.texts_names]
    cases target with
    | nil => exact ⟨_, by simpa [PathStep.between?] using hdetour, by simpa [way] using htexts⟩
    | cons t target =>
      by_cases hbt : b = t
      · simpa [PathStep.between?, way, hbt] using ih target
      · have hne : PathStep.name t ≠ .name b := fun h => hbt (PathStep.name.inj h).symm
        refine ⟨_, ?_, by simpa [way, hbt] using htexts⟩
        simpa [PathStep.between?, hne] using hdetour

section Relative

variable {root p : Path}

theorem start?_eq_root_iff : p.start? = some .root ↔ p.isAbsolute := by
  unfold start?
  split_ifs with h <;> simp [h]

theorem isAbsolute_eq_of_start?_eq (h : root.start? = p.start?) :
    root.isAbsolute = p.isAbsolute := by
  rw [Bool.eq_iff_iff, ← start?_eq_root_iff, ← start?_eq_root_iff, h]

theorem names_eq_namesIn_body (p : Path) : p.names = namesIn p.body := by
  unfold body start?
  split_ifs with habs hdot
  · exact names_of_isAbsolute habs
  · obtain ⟨rest, hrest⟩ := List.head?_eq_some_iff.mp hdot
    simp only
    rw [names, hrest, namesIn_cons_of_skipped (.inr rfl), List.tail_cons]
  · rfl

namespace IsForward

theorem body (h : p.IsForward) : ".." ∉ p.body := by
  unfold Path.body
  split
  · exact fun hmem => h (List.mem_of_mem_tail hmem)
  · exact h

theorem steps_eq (h : p.IsForward) : p.steps = p.start?.toList ++ p.names.map .name := by
  rw [steps, PathStep.filterMap_ofSegment? h.body, names_eq_namesIn_body]

theorem fileName?_eq (h : p.IsForward) : p.fileName? = p.names.getLast? := by
  rw [fileName?, h.steps_eq, List.getLast?_append, List.getLast?_map]
  cases p.names.getLast? with
  | some s => rfl
  | none =>
    unfold start?
    split_ifs <;> rfl

variable (hroot : root.IsForward) (h : p.IsForward)
include hroot h

/-- Paths that begin alike are compared by their names alone. -/
theorem relativeTo_of_start?_eq (hstart : root.start? = p.start?) :
    root.relativeTo p = relativeText root.names p.names := by
  have hway : PathStep.between? p.steps root.steps =
      PathStep.between? (p.names.map .name) (root.names.map .name) := by
    rw [h.steps_eq, hroot.steps_eq, hstart]
    cases p.start? with
    | none => rfl
    | some s => exact if_pos rfl
  obtain ⟨steps, hsteps, htext⟩ := between?_names p.names root.names
  rw [relativeTo, if_pos (isAbsolute_eq_of_start?_eq hstart), hway, hsteps, Option.getD_some,
    relativeText, ← htext]
  rfl

end IsForward

namespace IsDirect

theorem start?_eq (h : p.IsDirect) : p.start? = some .root := start?_eq_root_iff.mpr h.absolute

theorem fileName?_eq (h : p.IsDirect) : p.fileName? = p.names.getLast? := h.isForward.fileName?_eq

theorem relativeTo_eq (hroot : root.IsDirect) (h : p.IsDirect) :
    root.relativeTo p = relativeText root.names p.names :=
  hroot.isForward.relativeTo_of_start?_eq h.isForward (hroot.start?_eq.trans h.start?_eq.symm)

end IsDirect

end Relative

theorem mem_way {base target : List String} {s : String} (h : s ∈ way base target) :
    s = ".." ∨ s ∈ target := by
  obtain ⟨common, above, rest, -, rfl, hway⟩ := exists_way_eq base target
  rw [hway] at h
  rcases List.mem_append.mp h with habove | hrest
  · obtain ⟨_, -, rfl⟩ := List.mem_map.mp habove
    exact .inl rfl
  · exact .inr (List.mem_append_right _ hrest)

theorem segments_intercalate {segments : List String} (hslash : ∀ s ∈ segments, '/' ∉ s.toList)
    (hne : segments ≠ []) : Path.segments ⟨"/".intercalate segments⟩ = segments := by
  have hsplit : (['/'].intercalate (segments.map String.toList)).splitOn '/' =
      segments.map String.toList :=
    List.splitOn_intercalate '/' (by simpa using hslash) (by simpa using hne)
  have htext : "/".toList = ['/'] := rfl
  rw [Path.segments, String.toList_intercalate, htext, Text.split_eq_splitOn, hsplit, List.map_map]
  simp [Function.comp_def]

theorem filter_segments_intercalate {names : List String}
    (h : ∀ s ∈ names, s ≠ "" ∧ '/' ∉ s.toList) :
    (segments ⟨"/".intercalate names⟩).filter (· ≠ "") = names := by
  by_cases hnil : names = []
  · subst hnil
    rfl
  · rw [segments_intercalate (fun s hs => (h s hs).2) hnil]
    exact List.filter_eq_self.mpr fun s hs => decide_eq_true (h s hs).1

/-- Different places have different relative texts. -/
theorem relativeText_inj {base a b : List String} (ha : ∀ s ∈ a, IsName s) (hb : ∀ s ∈ b, IsName s)
    (h : relativeText base a = relativeText base b) : a = b := by
  have hsegments (names : List String) (hnames : ∀ s ∈ names, IsName s) :
      ∀ s ∈ way base names, s ≠ "" ∧ '/' ∉ s.toList := by
    intro s hs
    rcases mem_way hs with rfl | hs
    · decide
    · exact ⟨(hnames s hs).not_empty, (hnames s hs).no_slash⟩
  have hway : way base a = way base b := by
    rw [← filter_segments_intercalate (hsegments a ha),
      ← filter_segments_intercalate (hsegments b hb)]
    exact congrArg (fun text => (segments ⟨text⟩).filter (· ≠ "")) h
  exact way_inj (IsName.ne_parent_of_mem ha) (IsName.ne_parent_of_mem hb) hway

end Path

end MigrationAudit
