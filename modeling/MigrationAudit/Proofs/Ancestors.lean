import MigrationAudit.Proofs.Lookup
import MigrationAudit.Proofs.Spelling
import Mathlib.Data.List.Infix

namespace MigrationAudit

theorem Text.suffixes_eq_tails {α : Type} (l : List α) : suffixes l = l.tails := by
  induction l with
  | nil => rfl
  | cons a l ih => rw [suffixes, ih, List.tails_cons]

theorem pairwise_length_tails {α : Type} (l : List α) :
    l.tails.Pairwise fun a b => b.length < a.length := by
  induction l with
  | nil => simp
  | cons a l ih =>
    rw [List.tails_cons]
    refine .cons ?_ ih
    intro b hb
    have hle := ((List.mem_tails b l).mp hb).length_le
    rw [List.length_cons]
    omega

namespace Path

def beginsWithName (segments : List String) : Bool :=
  (segments.head?.bind PathStep.ofSegment?).isSome

theorem beginsWithName_cons {s : String} {segments : List String} :
    beginsWithName (s :: segments) ↔ ¬(s = "" ∨ s = ".") := by
  rw [beginsWithName, List.head?_cons, Option.bind_some, PathStep.ofSegment?]
  split_ifs <;> simp_all

/-- Of the ends of a list, those that begin with a name are the ends of its names, all but the empty
one. -/
theorem map_namesIn_tails (segments : List String) :
    (segments.tails.filter beginsWithName).map namesIn ++ [[]] = (namesIn segments).tails := by
  induction segments with
  | nil => rfl
  | cons s segments ih =>
    rw [List.tails_cons]
    by_cases hskip : s = "" ∨ s = "."
    · rw [List.filter_cons_of_neg fun h => beginsWithName_cons.mp h hskip, ih,
        namesIn_cons_of_skipped hskip]
    · rw [List.filter_cons_of_pos (beginsWithName_cons.mpr hskip), List.map_cons, List.cons_append,
        ih, namesIn_cons_of_kept hskip, List.tails_cons]

theorem namesIn_reverse (segments : List String) :
    namesIn segments.reverse = (namesIn segments).reverse :=
  List.filter_reverse

section WithBody

variable {p : Path} {segments : List String}

theorem mem_segments_of_mem_body {s : String} (h : s ∈ p.body) : s ∈ p.segments := by
  unfold body at h
  split at h
  · exact List.mem_of_mem_tail h
  · exact h

theorem start?_cases (p : Path) :
    p.start? = some .root ∨ p.start? = some .current ∨ p.start? = none := by
  unfold start?
  split_ifs <;> simp

theorem start?_eq_none_iff :
    p.start? = none ↔ p.isAbsolute = false ∧ p.segments.head? ≠ some "." := by
  unfold start?
  split_ifs <;> simp_all

/-- A relative path without a dot in front begins with a name. -/
theorem names_ne_nil_of_start? (hstart : p.start? = none) (htext : p.text ≠ "") : p.names ≠ [] := by
  obtain ⟨hrelative, hdot⟩ := start?_eq_none_iff.mp hstart
  obtain ⟨s, rest, hfirst, hs⟩ := exists_segments_eq_cons hrelative htext
  rw [hfirst, List.head?_cons, ne_eq, Option.some_inj] at hdot
  rw [names, hfirst, namesIn_cons_of_kept (not_or.mpr ⟨hs, hdot⟩)]
  exact List.cons_ne_nil _ _

namespace IsForward

/-- A path that is cut begins as before. -/
theorem withBody (h : p.IsForward) (htext : p.text ≠ "") (hpart : segments <+: p.body)
    (hne : segments ≠ []) :
    (p.withBody segments).start? = p.start? ∧ (p.withBody segments).IsForward ∧
      (p.withBody segments).names = namesIn segments := by
  have hup : ".." ∉ segments := fun hmem => h.body (hpart.mem hmem)
  have hjoined : Path.segments ⟨"/".intercalate segments⟩ = segments :=
    segments_intercalate
      (fun s hs => no_slash_of_mem_segments (mem_segments_of_mem_body (hpart.mem hs))) hne
  have hspelled (front : List String) (hfront : ∀ s ∈ front, s = "" ∨ s = ".")
      (hsegments : (p.withBody segments).segments = front ++ segments) :
      (p.withBody segments).IsForward ∧ (p.withBody segments).names = namesIn segments := by
    have hnone : namesIn front = [] := List.filter_eq_nil_iff.mpr fun s hs => by
      rcases hfront s hs with rfl | rfl <;> decide
    have hfree : ".." ∉ front := fun hmem => by
      rcases hfront _ hmem with hempty | hdot
      · exact absurd hempty (by decide)
      · exact absurd hdot (by decide)
    constructor
    · unfold IsForward
      rw [hsegments, List.mem_append, not_or]
      exact ⟨hfree, hup⟩
    · rw [names, hsegments, namesIn_append, hnone, List.nil_append]
  rcases p.start?_cases with hstart | hstart | hstart
  · have hcut : p.withBody segments = ⟨"" ++ "/" ++ "/".intercalate segments⟩ := by
      simp only [Path.withBody, hstart]
      rfl
    refine ⟨?_, hspelled [""] (by simp) ?_⟩
    · rw [hstart, start?_eq_root_iff, hcut]
      exact isAbsolute_iff.mpr ⟨_, rfl⟩
    · rw [hcut, segments_append, hjoined]
      rfl
  · have hcut : p.withBody segments = Path.dotted ⟨"/".intercalate segments⟩ := by
      simp only [Path.withBody, hstart]
      rfl
    refine ⟨?_, hspelled ["."] (by simp) ?_⟩
    · rw [hcut, start?_dotted, hstart]
    · rw [hcut, segments_dotted, hjoined]
      rfl
  · have hcut : p.withBody segments = ⟨"/".intercalate segments⟩ := by
      simp only [Path.withBody, hstart]
    refine ⟨?_, hspelled [] (by simp) ?_⟩
    · have hrelative : p.isAbsolute = false := isAbsolute_eq_false_of_start? (by simp [hstart])
      obtain ⟨s, rest, hfirst, hs⟩ := exists_segments_eq_cons hrelative htext
      obtain ⟨t, rest', rfl⟩ := List.exists_cons_of_ne_nil hne
      have hbody : p.body = s :: rest := by rw [Path.body, hstart, hfirst]
      obtain rfl : t = s := (List.cons_prefix_cons.mp (hbody ▸ hpart)).1
      obtain ⟨-, hdot⟩ := start?_eq_none_iff.mp hstart
      rw [hstart, start?_eq_none_iff, hcut, hjoined]
      refine ⟨?_, by rwa [hfirst] at hdot⟩
      rw [Bool.eq_false_iff]
      intro habs
      have hempty := segments_of_isAbsolute habs
      rw [hjoined] at hempty
      exact hs (List.cons.inj hempty).1
    · rw [hcut, hjoined]
      rfl

/-- What is left of a path up to one of its names. -/
theorem of_mem_tails (h : p.IsForward) (htext : p.text ≠ "") {reversed : List String}
    (hmem : reversed ∈ p.body.reverse.tails.filter beginsWithName) :
    ((p.withBody reversed.reverse).start? = p.start? ∧ (p.withBody reversed.reverse).IsForward ∧
      (p.withBody reversed.reverse).text ≠ "") ∧
      (p.withBody reversed.reverse).names = (namesIn reversed).reverse := by
  obtain ⟨htail, hbegins⟩ := List.mem_filter.mp hmem
  have hpart : reversed.reverse <+: p.body :=
    List.reverse_suffix.mp (by simpa using (List.mem_tails _ _).mp htail)
  obtain ⟨s, rest, rfl⟩ : ∃ s rest, reversed = s :: rest := by
    apply List.exists_cons_of_ne_nil
    rintro rfl
    exact Bool.false_ne_true hbegins
  obtain ⟨hstart, hforward, hnames⟩ :=
    h.withBody htext hpart (mt List.reverse_eq_nil_iff.mp (List.cons_ne_nil s rest))
  rw [namesIn_reverse] at hnames
  refine ⟨⟨hstart, hforward, fun hempty => ?_⟩, hnames⟩
  have hnone : (p.withBody (s :: rest).reverse).names = [] := by
    rw [names, Path.segments, hempty]
    decide
  rw [hnames, List.reverse_eq_nil_iff,
    namesIn_cons_of_kept (beginsWithName_cons.mp hbegins)] at hnone
  cases hnone

end IsForward

def startPath? (p : Path) : Option Path := p.start?.map fun step => ⟨step.text⟩

theorem mem_startPath? {d : Path} (h : d ∈ p.startPath?) :
    d.start? = p.start? ∧ d.IsForward ∧ d.text ≠ "" := by
  unfold startPath? at h
  rcases p.start?_cases with hstart | hstart | hstart
  · rw [hstart] at h ⊢
    cases h
    decide
  · rw [hstart] at h ⊢
    cases h
    decide
  · rw [hstart] at h
    cases h

theorem names_startPath? (p : Path) :
    p.startPath?.toList.map names ++ (if p.start? = none then [[]] else []) = [[]] := by
  rw [startPath?]
  rcases p.start?_cases with hstart | hstart | hstart <;> rw [hstart] <;> decide

theorem ancestors_eq (p : Path) :
    p.ancestors = match p.body.reverse.tails.filter beginsWithName with
      | [] => []
      | _ :: above => above.map (fun reversed => p.withBody reversed.reverse) ++
        p.startPath?.toList := by
  unfold Path.ancestors
  rw [Text.suffixes_eq_tails]
  rfl

/-- The directories above are spelled by the names above; the empty path is none of them. -/
theorem IsForward.ancestors (h : p.IsForward) (htext : p.text ≠ "") :
    (∀ d ∈ p.ancestors, d.start? = p.start? ∧ d.IsForward ∧ d.text ≠ "") ∧
      (p :: p.ancestors).map names ++ (if p.start? = none then [[]] else []) =
        p.names.reverse.tails.map List.reverse := by
  have hends := map_namesIn_tails p.body.reverse
  rw [namesIn_reverse, ← names_eq_namesIn_body] at hends
  rw [p.ancestors_eq]
  cases hbodies : p.body.reverse.tails.filter beginsWithName with
  | nil =>
    rw [hbodies, List.map_nil, List.nil_append] at hends
    have hnil : p.names = [] := by
      cases hnames : p.names.reverse with
      | nil => exact List.reverse_eq_nil_iff.mp hnames
      | cons s rest => simp [hnames] at hends
    have hstart : p.start? ≠ none := fun hstart => names_ne_nil_of_start? hstart htext hnil
    exact ⟨fun d hd => absurd hd List.not_mem_nil, by simp [hnil, hstart]⟩
  | cons whole above =>
    have habove (r : List String) (hr : r ∈ above) :=
      h.of_mem_tails htext (hbodies ▸ List.mem_cons_of_mem whole hr)
    have hnames : (above.map fun r => p.withBody r.reverse).map names =
        (above.map namesIn).map List.reverse := by
      rw [List.map_map, List.map_map]
      exact List.map_congr_left fun r hr => (habove r hr).2
    rw [hbodies, List.map_cons] at hends
    have hwhole : namesIn whole = p.names.reverse := by
      have hhead := congrArg List.head? hends
      cases hreverse : p.names.reverse <;> simpa [hreverse] using hhead
    constructor
    · intro d hd
      rcases List.mem_append.mp hd with hd | hd
      · obtain ⟨r, hr, rfl⟩ := List.mem_map.mp hd
        exact (habove r hr).1
      · exact mem_startPath? (Option.mem_toList.mp hd)
    · -- The first of the ends spells the path itself; its start stands in for the empty one.
      rw [List.map_cons, List.map_append, hnames, List.cons_append, List.append_assoc,
        names_startPath?, ← hends, hwhole]
      simp

theorem IsForward.of_mem_ancestors (h : p.IsForward) (htext : p.text ≠ "") {d : Path}
    (hd : d ∈ p :: p.ancestors) : d.start? = p.start? ∧ d.IsForward ∧ d.text ≠ "" := by
  rcases List.mem_cons.mp hd with rfl | hd
  · exact ⟨rfl, h, htext⟩
  · exact (h.ancestors htext).1 d hd

end WithBody

namespace IsDirect

variable {p : Path} (hp : p.IsDirect)
include hp

theorem ancestors :
    (∀ d ∈ p.ancestors, d.IsDirect) ∧
      (p :: p.ancestors).map names = p.names.reverse.tails.map List.reverse := by
  obtain ⟨habove, hnames⟩ := hp.isForward.ancestors (text_ne_of_isAbsolute hp.absolute)
  rw [hp.start?_eq, if_neg nofun, List.append_nil] at hnames
  refine ⟨fun d hd => ?_, hnames⟩
  obtain ⟨hstart, hforward, -⟩ := habove d hd
  exact ⟨start?_eq_root_iff.mp (hstart.trans hp.start?_eq), hforward⟩

theorem isDirect_of_mem {d : Path} (hd : d ∈ p :: p.ancestors) : d.IsDirect := by
  rcases List.mem_cons.mp hd with rfl | hd
  · exact hp
  · exact hp.ancestors.1 d hd

/-- On the way up the names get fewer. -/
theorem pairwise_ancestors :
    (p :: p.ancestors).Pairwise fun a b => b.names.length < a.names.length := by
  have hpairwise := (pairwise_length_tails p.names.reverse).map List.reverse
    (S := fun a b => b.length < a.length) (by simp)
  rw [← hp.ancestors.2] at hpairwise
  exact List.pairwise_map.mp hpairwise

theorem exists_mem_ancestors_iff {names : List String} :
    (∃ d ∈ p :: p.ancestors, d.names = names) ↔ names <+: p.names := by
  rw [← List.mem_map, hp.ancestors.2, List.mem_map]
  constructor
  · rintro ⟨reversed, hmem, rfl⟩
    exact List.reverse_suffix.mp (by simpa using (List.mem_tails _ _).mp hmem)
  · intro hbelow
    exact ⟨names.reverse, (List.mem_tails _ _).mpr (List.reverse_suffix.mpr hbelow),
      List.reverse_reverse _⟩

end IsDirect

end Path

end MigrationAudit
