import MigrationAudit.Proofs.RelativePath

namespace MigrationAudit

namespace Path

section Join

variable {base p : Path}

theorem exists_segments_eq_cons (hp : p.isAbsolute = false) (hempty : p.text ≠ "") :
    ∃ s rest, p.segments = s :: rest ∧ s ≠ "" := by
  obtain ⟨c, chars, hchars⟩ := List.exists_cons_of_ne_nil (mt String.toList_eq_nil_iff.mp hempty)
  have hc : c ≠ '/' := by
    rintro rfl
    simp [isAbsolute, hchars] at hp
  rw [segments, hchars, Text.split, if_neg hc]
  cases Text.split '/' chars <;> simp

theorem head?_append_segments (p : Path) (rest : List String) :
    (p.segments ++ rest).head? = p.segments.head? := by
  rw [List.head?_append, Option.or_eq_left_of_isSome]
  exact List.isSome_head?.mpr p.segments_ne_nil

theorem head?_segments_join (hp : p.isAbsolute = false) (hbase : base.text ≠ "") :
    (base.join p).segments.head? = base.segments.head? := by
  obtain ⟨front, hjoin, hfront⟩ := exists_join_eq hp hbase
  rw [hjoin, segments_append, head?_append_segments]
  rcases hfront with hfront | hfront
  · exact congrArg (fun text => (segments ⟨text⟩).head?) hfront.symm
  · have hsegments : base.segments = segments ⟨front ++ "/"⟩ :=
      congrArg (fun text => segments ⟨text⟩) hfront
    rw [hsegments, segments_append_slash, head?_append_segments]

theorem slash_mem_join (hp : p.isAbsolute = false) (hbase : base.text ≠ "") :
    '/' ∈ (base.join p).text.toList := by
  obtain ⟨front, hjoin, -⟩ := exists_join_eq hp hbase
  simp [hjoin]

/-- A path goes on as it began. -/
theorem start?_join (hp : p.isAbsolute = false) (hbase : base.text ≠ "") :
    (base.join p).start? = base.start? := by
  rw [start?, start?, isAbsolute_join_eq hp hbase, head?_segments_join hp hbase]

end Join

section Start

variable {p root : Path}

theorem start?_of_relative (h : p.isAbsolute = false) :
    p.start? = some .current ∨ p.start? = none := by
  unfold start?
  rw [h]
  split_ifs <;> simp_all

theorem isAbsolute_eq_false_of_start? (h : p.start? ≠ some .root) : p.isAbsolute = false := by
  rw [ne_eq, start?_eq_root_iff] at h
  exact Bool.eq_false_iff.mpr h

theorem IsForward.relativeTo_of_dot_nil (hroot : root.IsForward) (h : p.IsForward)
    (hstart : root.start? = some .current) (hnil : root.names = []) (hp : p.start? = none)
    (hne : p.names ≠ []) : root.relativeTo p = relativeText root.names p.names := by
  obtain ⟨name, names, hnames⟩ := List.exists_cons_of_ne_nil hne
  have hsame : root.isAbsolute = p.isAbsolute := by
    rw [isAbsolute_eq_false_of_start? (by simp [hstart]),
      isAbsolute_eq_false_of_start? (by simp [hp])]
  have hway : PathStep.between? p.steps root.steps = some (p.names.map .name) := by
    rw [h.steps_eq, hroot.steps_eq, hstart, hp, hnil, hnames]
    cases names <;> rfl
  rw [relativeTo, if_pos hsame, hway, Option.getD_some, hnil]
  exact congrArg _ (PathStep.texts_names p.names)

end Start

theorem way_append_left (common base target : List String) :
    way (common ++ base) (common ++ target) = way base target := by
  induction common with
  | nil => rfl
  | cons name common ih => rw [List.cons_append, List.cons_append, way, if_pos rfl, ih]

/-- What base and target have in common leaves no trace. -/
theorem relativeText_append_left (common base target : List String) :
    relativeText (common ++ base) (common ++ target) = relativeText base target := by
  rw [relativeText, relativeText, way_append_left]

theorem relativeText_append_self (base names : List String) :
    relativeText base (base ++ names) = "/".intercalate names := by
  have hway : way (base ++ []) (base ++ names) = way [] names := way_append_left base [] names
  rw [List.append_nil] at hway
  rw [relativeText, hway]
  rfl

def dotted (p : Path) : Path := ⟨"./" ++ p.text⟩

section Dotted

variable (p : Path)

theorem segments_dotted : p.dotted.segments = "." :: p.segments := segments_append "." p.text

theorem isAbsolute_dotted : p.dotted.isAbsolute = false := by simp [isAbsolute, dotted]

theorem start?_dotted : p.dotted.start? = some .current := by
  rw [start?, isAbsolute_dotted, segments_dotted]
  rfl

theorem names_dotted : p.dotted.names = p.names := by
  rw [names, segments_dotted, namesIn_cons_of_skipped (.inr rfl)]
  rfl

variable {p}

theorem IsForward.dotted (h : p.IsForward) : p.dotted.IsForward := by
  simpa [IsForward, segments_dotted] using h

end Dotted

/-- The segments that take the place of the names of a directory when its path begins with a dot and
the path to a file in it does not: the first name, a way back for every name, and the other
names. -/
def detour (names : List String) : List String :=
  names.take 1 ++ names.map (fun _ => "..") ++ names.drop 1

theorem detour_ne_nil {names : List String} (h : names ≠ []) : detour names ≠ [] := by
  obtain ⟨name, names, rfl⟩ := List.exists_cons_of_ne_nil h
  exact List.cons_ne_nil _ _

theorem parent_mem_detour {names : List String} (h : names ≠ []) : ".." ∈ detour names := by
  obtain ⟨name, names, rfl⟩ := List.exists_cons_of_ne_nil h
  simp [detour]

theorem mem_detour {names : List String} {s : String} (h : s ∈ detour names) :
    s = ".." ∨ s ∈ names := by
  rw [detour, List.append_assoc, List.mem_append, List.mem_append, List.mem_map] at h
  rcases h with h | ⟨_, -, rfl⟩ | h
  · exact .inr (List.mem_of_mem_take h)
  · exact .inl rfl
  · exact .inr (List.mem_of_mem_drop h)

theorem IsForward.relativeTo_detour {root p : Path} {rest : List String} (hroot : root.IsForward)
    (h : p.IsForward) (hstart : root.start? = some .current) (hp : p.start? = none)
    (hne : root.names ≠ []) (hnames : p.names = root.names ++ rest) :
    root.relativeTo p = "/".intercalate (detour root.names ++ rest) := by
  obtain ⟨name, names, hroots⟩ := List.exists_cons_of_ne_nil hne
  have hsame : root.isAbsolute = p.isAbsolute := by
    rw [isAbsolute_eq_false_of_start? (by simp [hstart]),
      isAbsolute_eq_false_of_start? (by simp [hp])]
  -- The dot uses up the first name of the file, and all names of the directory are left to go back.
  have hway : PathStep.between? p.steps root.steps =
      (PathStep.detour? ((names ++ rest).map .name) ((name :: names).map .name)).map
        (.name name :: ·) := by
    rw [h.steps_eq, hroot.steps_eq, hstart, hp, hnames, hroots]
    rfl
  rw [PathStep.detour?_names, Option.map_some] at hway
  have htexts : PathStep.texts (.name name :: (((name :: names).map fun _ => PathStep.parent) ++
      (names ++ rest).map .name)) = detour root.names ++ rest := by
    rw [← List.singleton_append, PathStep.texts_append, PathStep.texts_append,
      PathStep.texts_parents, PathStep.texts_names, hroots]
    simp [PathStep.texts, PathStep.text, detour]
  rw [relativeTo, if_pos hsame, hway, Option.getD_some]
  exact congrArg _ htexts

end Path

end MigrationAudit
