import MigrationAudit.Proofs.ProjectFindings
import MigrationAudit.Proofs.ReportColours

namespace MigrationAudit

namespace Text

variable {c : Char} {front front' between back back' : List Char}

/-- A text ends where `between` begins with a character that is not in it. -/
theorem cut_between_inj (c : Char) (hbetween : between.head? = some c) (h : c ∉ front)
    (h' : c ∉ front') (heq : front ++ (between ++ back) = front' ++ (between ++ back')) :
    front = front' ∧ back = back' := by
  obtain ⟨more, rfl⟩ := List.head?_eq_some_iff.mp hbetween
  obtain ⟨hfront, hback⟩ := cut_inj h h' heq
  exact ⟨hfront, List.append_cancel_left hback⟩

/-- A number ends where something else than a digit follows. -/
theorem number_inj {m n : Nat} (c : Char) (hbetween : between.head? = some c)
    (hc : c.isDigit = false)
    (heq : m.repr.toList ++ (between ++ back) = n.repr.toList ++ (between ++ back')) :
    m = n ∧ back = back' := by
  obtain ⟨hnumber, hback⟩ :=
    cut_between_inj c hbetween (not_mem_toList_repr hc m) (not_mem_toList_repr hc n) heq
  have hread := congrArg natural? hnumber
  rw [natural?_repr, natural?_repr] at hread
  exact ⟨Option.some.inj hread, hback⟩

end Text

theorem exists_occurrencesText_eq (n : Nat) : ∃ word : List Char, (∀ c ∈ word, c.isAlpha) ∧
    (occurrencesText n).toList = n.repr.toList ++ ([' '] ++ word) := by
  unfold occurrencesText
  split_ifs with h
  · exact ⟨"occurrence".toList, by simp, by rw [h]; decide⟩
  · refine ⟨"occurrences".toList, by simp, ?_⟩
    simp only [toString, String.toList_append]
    rfl

theorem not_mem_occurrencesText {c : Char} (hdigit : c.isDigit = false)
    (hletter : c.isAlpha = false) (hblank : c ≠ ' ') (n : Nat) :
    c ∉ (occurrencesText n).toList := by
  obtain ⟨word, hword, htext⟩ := exists_occurrencesText_eq n
  rw [htext, List.mem_append, List.mem_append, List.mem_singleton]
  rintro (h | h | h)
  · exact Text.not_mem_toList_repr hdigit n h
  · exact hblank h
  · rw [hword c h] at hletter
    exact Bool.noConfusion hletter

theorem occurrencesText_inj {m n : Nat} (h : occurrencesText m = occurrencesText n) : m = n := by
  obtain ⟨word, -, hm⟩ := exists_occurrencesText_eq m
  obtain ⟨word', -, hn⟩ := exists_occurrencesText_eq n
  rw [h, hn] at hm
  exact (Text.number_inj ' ' rfl rfl hm).1.symm

namespace Issue

/-- An issue that can be told from its lines. -/
structure Legible (i : Issue) : Prop where
  id : '❳' ∉ i.id.toList
  title : '❲' ∉ i.title.toList
  lines : ∀ t ∈ i.texts, '\n' ∉ t.toList
  project : i.isProjectLevel → i.occurrences = 0

def place (i : Issue) : List Char :=
  i.file.toList ++ if i.isProjectLevel then [] else ' ' :: '(' ::
    ((occurrencesText i.occurrences).toList ++ [')'])

def mark (s : Severity) : List Char := s.iconPart.2.toList ++ ' ' :: (s.badgePart.2.toList ++ [' '])

def heading (i : Issue) : List Char :=
  mark i.severity ++ (i.title.toList ++ ' ' :: '❲' :: (i.id.toList ++ '❳' :: ' ' :: i.place))

def block (i : Issue) : List Char :=
  i.heading ++ '\n' :: ("    ".toList ++ i.description.toList ++ '\n' ::
    ("    Recommendation: ".toList ++ i.message.toList ++ ['\n']))

theorem block_append (i : Issue) (rest : List Char) : i.block ++ rest =
    i.heading ++ '\n' :: ("    ".toList ++ i.description.toList ++ '\n' ::
      ("    Recommendation: ".toList ++ i.message.toList ++ '\n' :: rest)) := by
  simp [block]

theorem toList_styled (i : Issue) : (Styled.toText false i.styled).toList = i.block := by
  have hcount : (if i.isProjectLevel then "" else s!" ({occurrencesText i.occurrences})").toList =
      if i.isProjectLevel then [] else ' ' :: '(' ::
        ((occurrencesText i.occurrences).toList ++ [')']) := by
    split_ifs
    · rfl
    · simp only [toString, String.toList_append]
      rfl
  rw [Styled.toList_toText_false]
  simpa [styled, block, heading, mark, place, Severity.iconPart, Severity.badgePart,
    toString] using hcount

variable {i j : Issue}

theorem place_of_project (h : i.isProjectLevel) : i.place = projectName.toList := by
  rw [place, if_pos h, List.append_nil, show i.file = projectName from of_decide_eq_true h]

/-- The last opening parenthesis is that of the count, whatever stands in the name. -/
theorem reverse_place (h : ¬i.isProjectLevel) :
    i.place.reverse = (')' :: (occurrencesText i.occurrences).toList.reverse) ++
      '(' :: ' ' :: i.file.toList.reverse := by
  rw [place, if_neg h]
  simp

theorem place_ne_of_project (hi : i.isProjectLevel) (hj : ¬j.isProjectLevel) :
    i.place ≠ j.place := by
  intro h
  have hreverse := congrArg List.reverse h
  rw [place_of_project hi, reverse_place hj] at hreverse
  exact absurd (List.cons.inj hreverse).1 (by decide)

theorem place_inj (hi : i.isProjectLevel → i.occurrences = 0)
    (hj : j.isProjectLevel → j.occurrences = 0) (h : i.place = j.place) :
    i.file = j.file ∧ i.occurrences = j.occurrences := by
  by_cases hip : i.isProjectLevel
  · by_cases hjp : j.isProjectLevel
    · have hfile : i.file = projectName := of_decide_eq_true hip
      have hfile' : j.file = projectName := of_decide_eq_true hjp
      exact ⟨hfile.trans hfile'.symm, (hi hip).trans (hj hjp).symm⟩
    · exact absurd h (place_ne_of_project hip hjp)
  · by_cases hjp : j.isProjectLevel
    · exact absurd h.symm (place_ne_of_project hjp hip)
    · have hreverse := congrArg List.reverse h
      rw [reverse_place hip, reverse_place hjp] at hreverse
      have hparen (n : Nat) : '(' ∉ ')' :: (occurrencesText n).toList.reverse := by
        simp [not_mem_occurrencesText]
      obtain ⟨hcount, hfile⟩ := Text.cut_inj (hparen _) (hparen _) hreverse
      have hwords : occurrencesText i.occurrences = occurrencesText j.occurrences :=
        String.toList_inj.mp (List.reverse_injective (List.cons.inj hcount).2)
      have hnames : i.file = j.file :=
        String.toList_inj.mp (List.reverse_injective (List.cons.inj hfile).2)
      exact ⟨hnames, occurrencesText_inj hwords⟩

theorem mark_inj {s t : Severity} {rest rest' : List Char} (h : mark s ++ rest = mark t ++ rest') :
    s = t ∧ rest = rest' := by
  cases s <;> cases t <;> simp_all [mark, Severity.iconPart, Severity.badgePart, Severity.glyph]

theorem heading_inj (hi : i.Legible) (hj : j.Legible) (h : i.heading = j.heading) :
    i.severity = j.severity ∧ i.title = j.title ∧ i.id = j.id ∧ i.file = j.file ∧
      i.occurrences = j.occurrences := by
  obtain ⟨hseverity, hrest⟩ := mark_inj h
  have hcut (i : Issue) : i.title.toList ++ ' ' :: '❲' :: (i.id.toList ++ '❳' :: ' ' :: i.place) =
      (i.title.toList ++ [' ']) ++ '❲' :: (i.id.toList ++ '❳' :: ' ' :: i.place) := by simp
  rw [hcut i, hcut j] at hrest
  obtain ⟨htitle, hrest⟩ := Text.cut_inj (by simp [hi.title]) (by simp [hj.title]) hrest
  obtain ⟨hid, hrest⟩ := Text.cut_inj hi.id hj.id hrest
  obtain ⟨hfile, hoccurrences⟩ := place_inj hi.project hj.project (List.cons.inj hrest).2
  exact ⟨hseverity, String.toList_inj.mp (List.append_cancel_right htitle),
    String.toList_inj.mp hid, hfile, hoccurrences⟩

theorem Legible.not_mem_heading (h : i.Legible) : '\n' ∉ i.heading := by
  have hid : '\n' ∉ i.id.toList := h.lines i.id (by simp [texts])
  have htitle : '\n' ∉ i.title.toList := h.lines i.title (by simp [texts])
  have hfile : '\n' ∉ i.file.toList := h.lines i.file (by simp [texts])
  have hplace : '\n' ∉ i.place := by
    rw [place]
    split_ifs <;> simp [hfile, not_mem_occurrencesText]
  have hmark : '\n' ∉ mark i.severity := by cases i.severity <;> decide
  simp [heading, hid, htitle, hplace, hmark]

/-- What follows the lines of an issue does not matter for reading them. -/
theorem block_inj (hi : i.Legible) (hj : j.Legible) {rest rest' : List Char}
    (h : i.block ++ rest = j.block ++ rest') : i = j ∧ rest = rest' := by
  have hdescription {i : Issue} (hi : i.Legible) :
      '\n' ∉ "    ".toList ++ i.description.toList := by
    simp [hi.lines i.description (by simp [texts])]
  have hmessage {i : Issue} (hi : i.Legible) :
      '\n' ∉ "    Recommendation: ".toList ++ i.message.toList := by
    simp [hi.lines i.message (by simp [texts])]
  rw [block_append, block_append] at h
  obtain ⟨hheading, h⟩ := Text.cut_inj hi.not_mem_heading hj.not_mem_heading h
  obtain ⟨hsecond, h⟩ := Text.cut_inj (hdescription hi) (hdescription hj) h
  obtain ⟨hthird, hrest⟩ := Text.cut_inj (hmessage hi) (hmessage hj) h
  obtain ⟨hseverity, htitle, hid, hfile, hoccurrences⟩ := heading_inj hi hj hheading
  have hdescriptions : i.description = j.description :=
    String.toList_inj.mp (List.append_cancel_left hsecond)
  have hmessages : i.message = j.message := String.toList_inj.mp (List.append_cancel_left hthird)
  cases i
  cases j
  simp_all

theorem head?_block (i : Issue) (rest : List Char) :
    (i.block ++ rest).head? = i.severity.glyph.toList.head? := by
  rw [block_append, heading, mark]
  cases i.severity <;> rfl

/-- The lines of issues and what follows them, if that does not look like an issue. -/
theorem blocks_inj {is js : List Issue} (his : ∀ i ∈ is, i.Legible) (hjs : ∀ j ∈ js, j.Legible)
    {rest rest' : List Char} (hrest : rest.head? = some '—') (hrest' : rest'.head? = some '—')
    (h : is.flatMap block ++ rest = js.flatMap block ++ rest') : is = js ∧ rest = rest' := by
  have hhead (i : Issue) (more : List Char) : (i.block ++ more).head? ≠ some '—' := by
    rw [head?_block]
    cases i.severity <;> decide
  induction is generalizing js with
  | nil =>
    cases js with
    | nil => exact ⟨rfl, h⟩
    | cons j js =>
      rw [List.flatMap_cons, List.append_assoc] at h
      exact absurd ((congrArg List.head? h).symm.trans hrest) (hhead j _)
  | cons i is ih =>
    obtain ⟨hi, his'⟩ := List.forall_mem_cons.mp his
    rw [List.flatMap_cons, List.append_assoc] at h
    cases js with
    | nil => exact absurd ((congrArg List.head? h).trans hrest') (hhead i _)
    | cons j js =>
      obtain ⟨hj, hjs'⟩ := List.forall_mem_cons.mp hjs
      rw [List.flatMap_cons, List.append_assoc] at h
      obtain ⟨rfl, hlater⟩ := block_inj hi hj h
      obtain ⟨rfl, hend⟩ := ih his' hjs' hlater
      exact ⟨rfl, hend⟩

end Issue

theorem View.name_inj {v w : View} (h : v.name = w.name) : v = w := by
  have hall (s : Severity) : View.all.name ≠ (View.only s).name := by cases s <;> decide
  cases v with
  | all =>
    cases w with
    | all => rfl
    | only t => exact absurd h (hall t)
  | only s =>
    cases w with
    | all => exact absurd h.symm (hall s)
    | only t =>
      have hread : Severity.ofName? s.name = Severity.ofName? t.name := congrArg Severity.ofName? h
      rw [Severity.ofName?_name, Severity.ofName?_name] at hread
      rw [Option.some.inj hread]

theorem View.line_not_mem_name (v : View) : '\n' ∉ v.name.toList := by
  cases v with
  | all => decide
  | only s => cases s <;> decide

theorem Band.name_inj {b b' : Band} (h : b.name = b'.name) : b = b' := by
  cases b <;> cases b' <;> first | rfl | exact absurd h (by decide)

namespace Report

def closing (r : Report) : List Char :=
  "— Summary — issues=".toList ++ (r.issueCount.repr.toList ++ (" files=".toList ++
    (r.analyzedFileCount.repr.toList ++ (" critical=".toList ++ (r.tally.critical.repr.toList ++
    (" warnings=".toList ++ (r.tally.warning.repr.toList ++ (" infos=".toList ++
    (r.tally.info.repr.toList ++ (" filter=".toList ++ (r.view.name.toList ++
    ("\nCompatibility score: ".toList ++ (r.score.repr.toList ++ ("% (".toList ++
    (r.band.name.toList ++ ")\n".toList)))))))))))))))

theorem flatMap_closing (r : Report) :
    r.conclusionParts.flatMap (fun part => part.2.toList) = r.closing := by
  have hpercent : "% (".toList = "%".toList ++ " (".toList := rfl
  unfold conclusionParts summary closing
  simp only [toString, List.flatMap_cons, List.flatMap_nil, String.toList_append,
    List.append_assoc, hpercent, List.append_nil]

theorem toList_render (r : Report) : (r.render false).toList =
    (if r.issues.isEmpty then (Styled.toText false allClearParts).toList else []) ++
      (r.issues.flatMap Issue.block ++ r.closing) := by
  have hclear : (if r.issues.isEmpty then allClearParts else []).flatMap
      (fun part => part.2.toList) =
      if r.issues.isEmpty then (Styled.toText false allClearParts).toList else [] := by
    rw [Styled.toList_toText_false,
      apply_ite (List.flatMap fun part : Style × String => part.2.toList), List.flatMap_nil]
  have hblocks : (r.issues.flatMap Issue.styled).flatMap (fun part => part.2.toList) =
      r.issues.flatMap Issue.block := by
    rw [List.flatMap_assoc]
    congr 1
    funext i
    rw [← Issue.toList_styled, Styled.toList_toText_false]
  rw [render_eq, Styled.toList_toText_false r.styled, styled, List.flatMap_append,
    List.flatMap_append, hclear, hblocks, flatMap_closing, List.append_assoc]

theorem closing_inj {r r' : Report} (h : r.closing = r'.closing) :
    r.issueCount = r'.issueCount ∧ r.analyzedFileCount = r'.analyzedFileCount ∧ r.tally = r'.tally ∧
      r.view = r'.view ∧ r.score = r'.score ∧ r.band = r'.band := by
  unfold closing at h
  obtain ⟨hissues, h⟩ := Text.number_inj ' ' rfl rfl (List.append_cancel_left h)
  obtain ⟨hfiles, h⟩ := Text.number_inj ' ' rfl rfl h
  obtain ⟨hcritical, h⟩ := Text.number_inj ' ' rfl rfl h
  obtain ⟨hwarning, h⟩ := Text.number_inj ' ' rfl rfl h
  obtain ⟨hinfo, h⟩ := Text.number_inj ' ' rfl rfl h
  obtain ⟨hview, h⟩ := Text.cut_between_inj '\n' rfl r.view.line_not_mem_name
    r'.view.line_not_mem_name h
  obtain ⟨hscore, h⟩ := Text.number_inj '%' rfl rfl h
  have htally : r.tally = r'.tally := calc
    r.tally = ⟨r.tally.critical, r.tally.warning, r.tally.info⟩ := rfl
    _ = ⟨r'.tally.critical, r'.tally.warning, r'.tally.info⟩ := by rw [hcritical, hwarning, hinfo]
  exact ⟨hissues, hfiles, htally, View.name_inj (String.toList_inj.mp hview), hscore,
    Band.name_inj (String.toList_inj.mp (List.append_cancel_right h))⟩

/-- The first character tells whether there are issues. -/
theorem isEmpty_issues_iff (r : Report) :
    r.issues.isEmpty ↔ (r.render false).toList.head? = some '✔' := by
  rw [toList_render]
  cases r.issues with
  | nil =>
    rw [List.isEmpty_nil, if_pos rfl, Styled.toList_toText_false]
    exact iff_of_true rfl rfl
  | cons i is =>
    rw [List.isEmpty_cons, if_neg Bool.false_ne_true, List.nil_append, List.flatMap_cons,
      List.append_assoc, Issue.head?_block]
    cases i.severity <;> decide

/-- A report whose issues are legible can be read back from its text. -/
theorem render_inj {r r' : Report} (hr : ∀ i ∈ r.issues, i.Legible)
    (hr' : ∀ i ∈ r'.issues, i.Legible) (h : r.render false = r'.render false) : r = r' := by
  have hclosing (r : Report) : r.closing.head? = some '—' := rfl
  have hsame : r.issues.isEmpty = r'.issues.isEmpty := by
    rw [Bool.eq_iff_iff, isEmpty_issues_iff, isEmpty_issues_iff, h]
  have htext := congrArg String.toList h
  rw [toList_render, toList_render, hsame] at htext
  obtain ⟨hissues, hrest⟩ :=
    Issue.blocks_inj hr hr' (hclosing r) (hclosing r') (List.append_cancel_left htext)
  obtain ⟨hcount, hfiles, htally, hview, hscore, hband⟩ := closing_inj hrest
  calc
    r = ⟨r.issueCount, r.analyzedFileCount, r.score, r.band, r.tally, r.view, r.issues⟩ := rfl
    _ = ⟨r'.issueCount, r'.analyzedFileCount, r'.score, r'.band, r'.tally, r'.view, r'.issues⟩ := by
      rw [hcount, hfiles, hscore, hband, htally, hview, hissues]

end Report

end MigrationAudit
