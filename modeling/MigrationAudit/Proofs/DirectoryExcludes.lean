import MigrationAudit.Proofs.RootSpelling

namespace MigrationAudit

namespace GlobToken

def special : List Char := ['*', '?', '[', ']']

variable {c : Char} {position : Nat} {before : Option Char} {tokens : List GlobToken}
    {text rest : List Char}

theorem ofChars_cons (h : c ∉ special) : ofChars position before (c :: rest) =
    (ofChars (position + 1) (some c) rest).map (literal c :: ·) := by
  rw [ofChars]
  · rfl
  all_goals simp_all [special]

/-- A folder can be read anywhere: the position only serves to tell where a glob is wrong. -/
theorem ofChars_folder (h : ∀ c ∈ text, c ∉ special) :
    ofChars position before (text ++ ['/', '*', '*']) =
    .ok (text.map literal ++ [literal '/', anyFolders]) := by
  induction text generalizing position before with
  | nil =>
    rw [List.nil_append, ofChars_cons (by decide), ofChars]
    rfl
  | cons c text ih =>
    rw [List.cons_append, ofChars_cons (h c List.mem_cons_self),
      ih fun c hc => h c (List.mem_cons_of_mem _ hc)]
    rfl

theorem ofChars_anywhere (h : ∀ c ∈ text, c ∉ special) :
    ofChars 0 none ('*' :: '*' :: '/' :: (text ++ ['/', '*', '*'])) =
      .ok (anyFolders :: (text.map literal ++ [literal '/', anyFolders])) := by
  rw [ofChars, ofChars_folder h]
  rfl

theorem mem_afterSlashes : rest ∈ afterSlashes text ↔ ∃ front, text = front ++ '/' :: rest := by
  induction text with
  | nil => simp [afterSlashes]
  | cons c text ih =>
    have hcons : (∃ front, c :: text = front ++ '/' :: rest) ↔
        (c = '/' ∧ text = rest) ∨ ∃ front, text = front ++ '/' :: rest := by
      constructor
      · rintro ⟨_ | ⟨d, front⟩, h⟩
        · exact .inl (List.cons.inj h)
        · exact .inr ⟨front, (List.cons.inj h).2⟩
      · rintro (⟨rfl, rfl⟩ | ⟨front, rfl⟩)
        · exact ⟨[], rfl⟩
        · exact ⟨c :: front, rfl⟩
    rw [hcons, ← ih, afterSlashes]
    split_ifs with hc
    · simp [hc, eq_comm]
    · simp [hc]

theorem cover_literals (cs : List Char) :
    cover (cs.map literal ++ tokens) text ↔ ∃ rest, text = cs ++ rest ∧ cover tokens rest := by
  induction cs generalizing text with
  | nil => simp
  | cons c cs ih =>
    cases text with
    | nil => simp [cover]
    | cons d text => simp [cover, ih, and_assoc, eq_comm (a := c)]

/-- A folder covers what is below it. -/
theorem cover_folder :
    cover (text.map literal ++ [literal '/', anyFolders]) rest ↔ text ++ ['/'] <+: rest := by
  have hcover : cover ((text ++ ['/']).map literal ++ [anyFolders]) rest ↔
      ∃ below, rest = text ++ ['/'] ++ below ∧ cover [anyFolders] below := cover_literals _
  rw [List.map_append, List.append_assoc] at hcover
  refine hcover.trans (exists_congr fun below => ?_)
  simp [cover, eq_comm]

/-- A folder that may stand anywhere covers what is below it, at the start or behind a slash. -/
theorem cover_anywhere :
    cover (anyFolders :: (text.map literal ++ [literal '/', anyFolders])) rest ↔
    text ++ ['/'] <+: rest ∨ '/' :: text ++ ['/'] <:+: rest := by
  obtain ⟨token, tokens, htokens⟩ : ∃ token tokens, text.map literal ++
    [literal '/', anyFolders] = token :: tokens :=
    List.exists_cons_of_ne_nil (by simp)
  have hany : cover (anyFolders :: (text.map literal ++ [literal '/', anyFolders])) rest =
      (rest :: afterSlashes rest).any (cover (text.map literal ++ [literal '/', anyFolders])) := by
    rw [htokens, cover]
    simp
  rw [hany, List.any_cons, Bool.or_eq_true, cover_folder, List.any_eq_true]
  refine or_congr_right ?_
  constructor
  · rintro ⟨after, hafter, hcover⟩
    obtain ⟨front, rfl⟩ := mem_afterSlashes.mp hafter
    obtain ⟨below, rfl⟩ := cover_folder.mp hcover
    exact ⟨front, below, by simp⟩
  · rintro ⟨front, below, rfl⟩
    refine ⟨text ++ ['/'] ++ below, mem_afterSlashes.mpr ⟨front, by simp⟩, ?_⟩
    exact cover_folder.mpr (List.prefix_append _ below)

end GlobToken

def Glob.IsLiteral (s : String) : Prop := ∀ c ∈ s.toList, c ∉ GlobToken.special

namespace Discovery

variable {tree : FileTree} {root : Path} {paths : List Path}

theorem isKept_more {excludes added all : List Glob}
    (hall : ∀ g, g ∈ all ↔ g ∈ excludes ∨ g ∈ added) (relative name : String) :
    isKept all relative name =
      (isKept excludes relative name && !added.any (·.covers relative)) := by
  have hany : all.any (·.covers relative) =
      (excludes.any (·.covers relative) || added.any (·.covers relative)) := by
    rw [Bool.eq_iff_iff]
    simp only [List.any_eq_true, Bool.or_eq_true, hall, or_and_right, exists_or]
  rw [isKept, isKept, hany, Bool.not_or, Bool.and_assoc]

/-- More excludes take away the files that they cover. -/
theorem value_collect_more {excludes added all : List Glob}
    (hall : ∀ g, g ∈ all ↔ g ∈ excludes ∨ g ∈ added) :
    (collect tree root paths all).value =
      (collect tree root paths excludes).value.map (remaining added) := by
  have hload (e : String × Path) : (load? tree all e.1 e.2).value =
      (load? tree excludes e.1 e.2).value.filter fun f => !isExcluded added f := by
    rw [value_load?_eq, value_load?_eq, isKept_more hall]
    cases isKept excludes e.1 (e.2.fileName?.getD e.1) with
    | false => rfl
    | true =>
      rw [Bool.true_and, if_pos rfl, Option.filter_some]
      rfl
  rw [value_collect, value_collect]
  cases (targets root paths).find? (isMissing tree) with
  | some target => rfl
  | none =>
    simp only [Except.map, remaining, hload, List.filter_filterMap]

end Discovery

/-- A glob with the name of a directory in front keeps out what is below that directory, and with
`**/` before the name what is below any directory of the name; other excludes take away nothing
else. -/
theorem Discovery.excludes_name_directories {d : String} (literal : Glob.IsLiteral d) :
    ∃ below anywhere : Glob, Glob.parse (d ++ "/**") = .ok below ∧
      Glob.parse ("**/" ++ d ++ "/**") = .ok anywhere ∧
      (∀ path : String, below.covers path ↔ (d ++ "/").toList <+: path.toList) ∧
      (∀ path : String, anywhere.covers path ↔
        (d ++ "/").toList <+: path.toList ∨ ("/" ++ d ++ "/").toList <:+: path.toList) ∧
      ∀ (tree : FileTree) (root : Path) (paths : List Path) (excludes added all : List Glob),
        (∀ g, g ∈ all ↔ g ∈ excludes ∨ g ∈ added) →
        (collect tree root paths all).value =
          (collect tree root paths excludes).value.map (remaining added) := by
  refine ⟨⟨d.toList.map .literal ++ [.literal '/', .anyFolders]⟩,
    ⟨.anyFolders :: (d.toList.map .literal ++ [.literal '/', .anyFolders])⟩, ?_, ?_,
    fun path => ?_, fun path => ?_,
    fun tree root paths excludes added all => value_collect_more⟩
  · have hchars : (d ++ "/**").toList = d.toList ++ ['/', '*', '*'] := String.toList_append
    rw [Glob.parse, hchars, GlobToken.ofChars_folder literal]
    rfl
  · have hchars : ("**/" ++ d ++ "/**").toList =
        '*' :: '*' :: '/' :: (d.toList ++ ['/', '*', '*']) := by
      simp [String.toList_append]
    rw [Glob.parse, hchars, GlobToken.ofChars_anywhere literal]
    rfl
  · rw [Glob.covers, GlobToken.cover_folder, String.toList_append]
    rfl
  · rw [Glob.covers, GlobToken.cover_anywhere]
    simp [String.toList_append]

/-- A directory with a name that goes on is another one. -/
theorem Discovery.excludes_name_directories_build :
    Glob.IsLiteral "build" ∧
      ∃ below anywhere : Glob, Glob.parse "build/**" = .ok below ∧
        Glob.parse "**/build/**" = .ok anywhere ∧
        below.covers "build/A.kt" ∧ ¬below.covers "builder/A.kt" ∧ ¬below.covers "app/build/A.kt" ∧
        anywhere.covers "build/A.kt" ∧ anywhere.covers "app/build/x/build/A.kt" ∧
          ¬anywhere.covers "app/rebuild/A.kt" ∧
        (collect nestedTree ⟨"/w"⟩ [] [anywhere, below]).value =
          (collect nestedTree ⟨"/w"⟩ [] [below]).value.map (remaining [anywhere]) := by
  have literal : Glob.IsLiteral "build" := by simp [Glob.IsLiteral, GlobToken.special]
  have hfront : "build" ++ "/**" = "build/**" := by decide
  have hbehind : "**/" ++ "build" ++ "/**" = "**/build/**" := by decide
  obtain ⟨below, anywhere, hbelow, hanywhere, hstart, hpart, hmore⟩ :=
    excludes_name_directories literal
  rw [hfront] at hbelow
  rw [hbehind] at hanywhere
  have hall (g : Glob) : g ∈ [anywhere, below] ↔ g ∈ [below] ∨ g ∈ [anywhere] := by
    rw [List.mem_cons, List.mem_singleton, List.mem_singleton, or_comm]
  refine ⟨literal, below, anywhere, hbelow, hanywhere, ?_, ?_, ?_, ?_, ?_, ?_,
    hmore nestedTree ⟨"/w"⟩ [] [below] [anywhere] [anywhere, below] hall⟩
  · exact (hstart "build/A.kt").mpr (by decide)
  · exact mt (hstart "builder/A.kt").mp (by decide)
  · exact mt (hstart "app/build/A.kt").mp (by decide)
  · exact (hpart "build/A.kt").mpr (by decide)
  · exact (hpart "app/build/x/build/A.kt").mpr (.inr (by decide +kernel))
  · exact mt (hpart "app/rebuild/A.kt").mp (by decide +kernel)

end MigrationAudit
