import MigrationAudit.Path
import Mathlib.Tactic.SplitIfs

namespace MigrationAudit

namespace Text

theorem split_eq_splitOn (separator : Char) (text : List Char) :
    split separator text = text.splitOn separator := by
  induction text with
  | nil => rfl
  | cons c text ih =>
    rw [List.splitOn_cons_eq_if_modifyHead, ← ih]
    by_cases hc : c = separator
    · simp [split, hc]
    · cases htext : split separator text with
      | nil => exact absurd htext (split_ne_nil separator text)
      | cons piece pieces => simp [split, hc, htext]

theorem not_mem_of_mem_split {separator : Char} {text piece : List Char}
    (h : piece ∈ split separator text) : separator ∉ piece := by
  induction text generalizing piece with
  | nil => simp_all [split]
  | cons c text ih =>
    by_cases hc : c = separator
    · simp only [split, hc, if_true, List.mem_cons] at h
      rcases h with rfl | h
      · exact List.not_mem_nil
      · exact ih h
    · cases ht : split separator text with
      | nil => exact absurd ht (split_ne_nil separator text)
      | cons first pieces =>
        simp only [split, hc, if_false, ht, List.mem_cons] at h
        rcases h with rfl | h
        · have hfirst : separator ∉ first := ih (ht ▸ List.mem_cons_self)
          simp [Ne.symm hc, hfirst]
        · exact ih (ht ▸ List.mem_cons_of_mem _ h)

end Text

namespace Path

/-- Whether a text can be the name of something in a directory. -/
structure IsName (s : String) : Prop where
  not_empty : s ≠ ""
  not_current : s ≠ "."
  not_parent : s ≠ ".."
  no_slash : '/' ∉ s.toList

instance (s : String) : Decidable (IsName s) :=
  decidable_of_iff (s ≠ "" ∧ s ≠ "." ∧ s ≠ ".." ∧ '/' ∉ s.toList)
    ⟨fun ⟨empty, current, parent, slash⟩ => ⟨empty, current, parent, slash⟩,
      fun h => ⟨h.not_empty, h.not_current, h.not_parent, h.no_slash⟩⟩

def namesIn (segments : List String) : List String := segments.filter fun s => s ≠ "" ∧ s ≠ "."

/-- The names that a path spells out from the root on, if it begins there and never turns back. -/
def names (p : Path) : List String := namesIn p.segments

def IsForward (p : Path) : Prop := ".." ∉ p.segments

instance (p : Path) : Decidable p.IsForward := inferInstanceAs (Decidable (¬_))

/-- A path from the root on without a step to a parent. -/
structure IsDirect (p : Path) : Prop where
  absolute : p.isAbsolute
  no_parent : ".." ∉ p.segments

theorem IsDirect.isForward {p : Path} (h : p.IsDirect) : p.IsForward := h.no_parent

@[simp] theorem namesIn_nil : namesIn [] = [] := rfl

@[simp] theorem namesIn_append (a b : List String) : namesIn (a ++ b) = namesIn a ++ namesIn b :=
  List.filter_append a b

theorem namesIn_cons_of_skipped {s : String} (h : s = "" ∨ s = ".") (segments : List String) :
    namesIn (s :: segments) = namesIn segments := by
  rcases h with rfl | rfl <;> rfl

theorem namesIn_cons_of_kept {s : String} (h : ¬(s = "" ∨ s = ".")) (segments : List String) :
    namesIn (s :: segments) = s :: namesIn segments :=
  List.filter_cons_of_pos (decide_eq_true (not_or.mp h))

theorem IsName.ne_parent_of_mem {names : List String} (h : ∀ s ∈ names, IsName s) : ".." ∉ names :=
  fun hmem => (h _ hmem).not_parent rfl

theorem mem_namesIn {s : String} {segments : List String} (hs : IsName s) (h : s ∈ segments) :
    s ∈ namesIn segments :=
  List.mem_filter.mpr ⟨h, decide_eq_true ⟨hs.not_empty, hs.not_current⟩⟩

theorem segments_of_no_slash {s : String} (h : '/' ∉ s.toList) : segments ⟨s⟩ = [s] := by
  simp [segments, Text.split_eq_splitOn, List.splitOn_eq_singleton h]

theorem no_slash_of_mem_segments {p : Path} {s : String} (h : s ∈ p.segments) : '/' ∉ s.toList := by
  obtain ⟨piece, hpiece, rfl⟩ := List.mem_map.mp h
  simpa using Text.not_mem_of_mem_split hpiece

theorem segments_append (a b : String) :
    segments ⟨a ++ "/" ++ b⟩ = segments ⟨a⟩ ++ segments ⟨b⟩ := by
  simp [segments, Text.split_eq_splitOn, List.splitOn_append_cons_self]

theorem isAbsolute_iff {p : Path} : p.isAbsolute ↔ ∃ rest, p.text = "/" ++ rest := by
  simp only [isAbsolute, decide_eq_true_eq]
  constructor
  · intro h
    obtain ⟨rest, hrest⟩ := List.head?_eq_some_iff.mp h
    exact ⟨String.ofList rest, String.toList_inj.mp (by simp [hrest])⟩
  · rintro ⟨rest, h⟩
    simp [h]

theorem segments_of_isAbsolute {p : Path} (h : p.isAbsolute) :
    p.segments = "" :: p.segments.tail := by
  obtain ⟨rest, hrest⟩ := isAbsolute_iff.mp h
  simp [segments, hrest, Text.split]

theorem isAbsolute_of_no_slash {s : String} (h : '/' ∉ s.toList) : isAbsolute ⟨s⟩ = false := by
  cases habs : isAbsolute ⟨s⟩ with
  | false => rfl
  | true =>
    obtain ⟨rest, rfl⟩ := isAbsolute_iff.mp habs
    simp at h

theorem names_of_isAbsolute {p : Path} (h : p.isAbsolute) : p.names = namesIn p.segments.tail := by
  rw [names, segments_of_isAbsolute h, namesIn_cons_of_skipped (.inl rfl), List.tail_cons]

theorem exists_of_endsWith_slash {s : String} (h : Text.endsWith s "/") :
    ∃ front, s = front ++ "/" := by
  obtain ⟨front, hfront⟩ := List.isSuffixOf_iff_suffix.mp h
  exact ⟨String.ofList front, String.toList_inj.mp (by simpa using hfront.symm)⟩

theorem segments_ne_nil (p : Path) : p.segments ≠ [] :=
  mt List.map_eq_nil_iff.mp (Text.split_ne_nil _ _)

theorem text_ne_of_isAbsolute {p : Path} (h : p.isAbsolute) : p.text ≠ "" := by
  obtain ⟨rest, hrest⟩ := isAbsolute_iff.mp h
  simp [hrest]

section Join

variable {base p : Path}

theorem join_of_isAbsolute (h : p.isAbsolute) : base.join p = p := by
  rw [join, h, Bool.true_or, if_pos rfl]

/-- A slash at the end of the base is not doubled. -/
theorem exists_join_eq (hp : p.isAbsolute = false) (hbase : base.text ≠ "") :
    ∃ front, base.join p = ⟨front ++ "/" ++ p.text⟩ ∧
      (base.text = front ∨ base.text = front ++ "/") := by
  unfold join
  simp only [hp, hbase, Bool.false_or, decide_false, Bool.false_eq_true, if_false]
  split_ifs with hslash
  · obtain ⟨front, hfront⟩ := exists_of_endsWith_slash hslash
    exact ⟨front, by rw [hfront], .inr hfront⟩
  · exact ⟨base.text, rfl, .inl rfl⟩

theorem segments_append_slash (front : String) :
    segments ⟨front ++ "/"⟩ = segments ⟨front⟩ ++ [""] := by
  rw [← String.append_empty (s := front ++ "/"), segments_append]
  rfl

theorem segments_join (hp : p.isAbsolute = false) (hbase : base.text ≠ "") :
    ∃ front, (base.join p).segments = front ++ p.segments ∧
      (base.segments = front ∨ base.segments = front ++ [""]) := by
  obtain ⟨front, hjoin, hfront⟩ := exists_join_eq hp hbase
  refine ⟨segments ⟨front⟩, by rw [hjoin, segments_append], ?_⟩
  rcases hfront with hfront | hfront
  · exact .inl (congrArg (fun text => segments ⟨text⟩) hfront)
  · exact .inr ((congrArg (fun text => segments ⟨text⟩) hfront).trans (segments_append_slash front))

theorem isAbsolute_join_eq (hp : p.isAbsolute = false) (hbase : base.text ≠ "") :
    (base.join p).isAbsolute = base.isAbsolute := by
  obtain ⟨front, hjoin, hfront⟩ := exists_join_eq hp hbase
  rw [hjoin]
  rcases hfront with hfront | hfront
  · obtain ⟨c, rest, hchars⟩ :=
      List.exists_cons_of_ne_nil (mt String.toList_eq_nil_iff.mp (hfront ▸ hbase))
    simp [isAbsolute, hfront, hchars]
  · simp [isAbsolute, hfront]

theorem text_join_ne (hp : p.isAbsolute = false) (hbase : base.text ≠ "") :
    (base.join p).text ≠ "" := by
  obtain ⟨front, hjoin, -⟩ := exists_join_eq hp hbase
  simp [hjoin]

theorem names_join (hp : p.isAbsolute = false) (hbase : base.text ≠ "") :
    (base.join p).names = base.names ++ p.names := by
  obtain ⟨front, hjoin, hfront⟩ := segments_join hp hbase
  unfold names
  rcases hfront with hfront | hfront
  · rw [hjoin, hfront, namesIn_append]
  · rw [hjoin, hfront, namesIn_append, namesIn_append, namesIn_cons_of_skipped (.inl rfl),
      namesIn_nil, List.append_nil]

theorem getLast?_segments_join (hp : p.isAbsolute = false) (hbase : base.text ≠ "") :
    (base.join p).segments.getLast? = p.segments.getLast? := by
  obtain ⟨front, hjoin, -⟩ := segments_join hp hbase
  rw [hjoin, List.getLast?_append, List.getLast?_eq_some_getLast p.segments_ne_nil]
  rfl

theorem IsForward.join (hbase : base.IsForward) (hp : p.IsForward) : (base.join p).IsForward := by
  by_cases hcond : p.isAbsolute ∨ base.text = ""
  · rw [Path.join, if_pos (by simpa using hcond)]
    exact hp
  · obtain ⟨hrelative, htext⟩ := not_or.mp hcond
    obtain ⟨front, hjoin, hfront⟩ := segments_join (by simpa using hrelative) htext
    unfold IsForward at *
    rw [hjoin]
    rcases hfront with hfront | hfront <;> simp_all

theorem isAbsolute_join (h : base.isAbsolute) : (base.join p).isAbsolute := by
  cases hp : p.isAbsolute with
  | true => rwa [join_of_isAbsolute hp]
  | false => rwa [isAbsolute_join_eq hp (text_ne_of_isAbsolute h)]

namespace IsDirect

theorem join (hbase : base.IsDirect) (hp : p.IsForward) : (base.join p).IsDirect :=
  ⟨isAbsolute_join hbase.absolute, hbase.isForward.join hp⟩

theorem names_join (hbase : base.IsDirect) (hp : p.isAbsolute = false) :
    (base.join p).names = base.names ++ p.names :=
  Path.names_join hp (text_ne_of_isAbsolute hbase.absolute)

theorem join_segment (hbase : base.IsDirect) {s : String} (hslash : '/' ∉ s.toList)
    (hup : s ≠ "..") :
    (base.join ⟨s⟩).IsDirect ∧ (base.join ⟨s⟩).names = base.names ++ namesIn [s] := by
  have hsegments : segments ⟨s⟩ = [s] := segments_of_no_slash hslash
  refine ⟨hbase.join ?_, ?_⟩
  · rw [IsForward, hsegments]
    simpa using hup.symm
  · rw [hbase.names_join (isAbsolute_of_no_slash hslash), names, names, hsegments]

theorem foldl_join (hbase : base.IsDirect) {segments : List String}
    (hslash : ∀ s ∈ segments, '/' ∉ s.toList) (hup : ".." ∉ segments) :
    (segments.foldl (fun p s => p.join ⟨s⟩) base).IsDirect ∧
      (segments.foldl (fun p s => p.join ⟨s⟩) base).names = base.names ++ namesIn segments := by
  induction segments generalizing base with
  | nil => exact ⟨hbase, by simp⟩
  | cons s segments ih =>
    obtain ⟨hs, hrest⟩ := not_or.mp (mt List.mem_cons.mpr hup)
    obtain ⟨hjoin, hnames⟩ := hbase.join_segment (hslash s List.mem_cons_self) (Ne.symm hs)
    obtain ⟨hfold, hfoldnames⟩ := ih hjoin (fun t ht => hslash t (List.mem_cons_of_mem _ ht)) hrest
    refine ⟨hfold, ?_⟩
    rw [List.foldl_cons, hfoldnames, hnames, List.append_assoc, ← namesIn_append,
      List.singleton_append]

end IsDirect

end Join

end Path

end MigrationAudit
