import MigrationAudit.Rule
import MigrationAudit.Proofs.Fences
import MigrationAudit.Proofs.Scanning
import Mathlib.Data.List.Perm.Subperm

namespace MigrationAudit

/-- A span cuts a part of whole characters out of the text, also when it is counted in bytes. -/
def Span.Cuts (text : List Char) (s : Span) : Prop :=
  ∃ before part after, text = before ++ (part ++ after) ∧
    s = ⟨before.length, before.length + part.length⟩ ∧
    s.inBytes text = ⟨(String.ofList before).utf8ByteSize,
      (String.ofList before).utf8ByteSize + (String.ofList part).utf8ByteSize⟩

theorem Span.cuts_of_le {text : List Char} {s : Span} (horder : s.start ≤ s.stop)
    (hstop : s.stop ≤ text.length) : s.Cuts text := by
  have hbefore : (text.take s.start).length = s.start := List.length_take_of_le (horder.trans hstop)
  have hpart : ((text.drop s.start).take (s.stop - s.start)).length = s.stop - s.start := by
    rw [List.length_take_of_le]
    rw [List.length_drop]
    omega
  have hjoin : text.take s.stop =
      text.take s.start ++ (text.drop s.start).take (s.stop - s.start) := by
    rw [← List.take_add, Nat.add_sub_cancel' horder]
  refine ⟨text.take s.start, (text.drop s.start).take (s.stop - s.start), text.drop s.stop,
    ?_, ?_, ?_⟩
  · rw [← List.append_assoc, ← hjoin, List.take_append_drop]
  · rw [hbefore, hpart, Nat.add_sub_cancel' horder]
  · rw [inBytes, byteOffset, byteOffset, hjoin, String.ofList_append, String.utf8ByteSize_append]

namespace Pattern

variable {p : Pattern} {text : List Char} {n i j : Nat} {m : Match} {found : List Match}
    {justEnded : Bool}

/-- The match is the one that the pattern prefers where it begins. -/
structure Prefers (p : Pattern) (text : List Char) (m : Match) : Prop where
  start_le : m.whole.start ≤ text.length
  matchAt?_eq : p.matchAt? m.whole.start (text.drop m.whole.start) = some m

/-- The pattern describes nothing that begins between two positions, the second one not included. -/
def Quiet (p : Pattern) (text : List Char) (i j : Nat) : Prop :=
  ∀ n, i ≤ n → n < j → n ≤ text.length → ∀ e, ¬p.Covers text n e

theorem at_drop (hn : n ≤ text.length) (groups : List (Option Span)) :
    Progress.At text ⟨n, text.drop n, groups, []⟩ := ⟨hn, rfl⟩

theorem runAt_mem_outcomes {s : Progress} (h : p.runAt n (text.drop n) = some s) :
    s ∈ p.outcomes ⟨n, text.drop n, List.replicate p.groupCount none, []⟩ := by
  rw [runAt_eq_first] at h
  exact List.mem_of_mem_head? h

/-- Nothing is found at a position just if the pattern describes nothing that begins there. -/
theorem runAt_eq_none_iff (hp : p.forks.Nodup) (hn : n ≤ text.length) :
    p.runAt n (text.drop n) = none ↔ ∀ e, ¬p.Covers text n e := by
  rw [runAt_eq_first, first, List.head?_eq_none_iff]
  constructor
  · intro hnone e he
    have hat := at_drop hn (List.replicate p.groupCount none)
    obtain ⟨t, ht, -⟩ := exists_outcome_of_covers hp hat rfl he
    rw [hnone] at ht
    exact absurd ht List.not_mem_nil
  · intro hnone
    refine List.eq_nil_iff_forall_not_mem.mpr fun t ht => ?_
    exact hnone _ (covers_of_mem_outcomes (at_drop hn _) ht).2

namespace Prefers

theorem exists_run (h : p.Prefers text m) :
    ∃ s, p.runAt m.whole.start (text.drop m.whole.start) = some s ∧
    m.whole.stop = s.position ∧ m.groups = s.groups := by
  obtain ⟨s, hrun, hm⟩ := Option.map_eq_some_iff.mp h.matchAt?_eq
  exact ⟨s, hrun, congrArg (·.whole.stop) hm.symm, congrArg Match.groups hm.symm⟩

theorem covers (h : p.Prefers text m) : p.Covers text m.whole.start m.whole.stop := by
  obtain ⟨s, hrun, hstop, -⟩ := h.exists_run
  rw [hstop]
  exact (covers_of_mem_outcomes (at_drop h.start_le _) (runAt_mem_outcomes hrun)).2

theorem start_le_stop (h : p.Prefers text m) : m.whole.start ≤ m.whole.stop := h.covers.le

theorem stop_le (h : p.Prefers text m) : m.whole.stop ≤ text.length := by
  obtain ⟨s, hrun, hstop, -⟩ := h.exists_run
  rw [hstop]
  exact (covers_of_mem_outcomes (at_drop h.start_le _) (runAt_mem_outcomes hrun)).1.position_le

theorem groups (h : p.Prefers text m) {g : Span} (hg : some g ∈ m.groups) :
    m.whole.start ≤ g.start ∧ g.start ≤ g.stop ∧ g.stop ≤ m.whole.stop := by
  obtain ⟨s, hrun, hstop, hgroups⟩ := h.exists_run
  have hnone : Progress.Encloses m.whole.start
      ⟨m.whole.start, text.drop m.whole.start, List.replicate p.groupCount none, []⟩ :=
    ⟨le_rfl, fun g hg => absurd (List.eq_of_mem_replicate hg) nofun⟩
  rw [hstop]
  exact (encloses_of_mem_outcomes hnone (runAt_mem_outcomes hrun)).2.groups g (hgroups ▸ hg)

end Prefers

theorem quiet_of_silent (hp : p.forks.Nodup) {k : Nat} (h : p.Silent n (text.drop n) k) :
    p.Quiet text n (n + k) := by
  intro i hi hlt hle
  obtain ⟨d, rfl⟩ := Nat.exists_eq_add_of_le hi
  have hnone := h d (Nat.lt_of_add_lt_add_left hlt)
  rw [List.drop_drop] at hnone
  exact (runAt_eq_none_iff hp hle).mp hnone

theorem quiet_of_search (hp : p.forks.Nodup) (hn : n ≤ text.length)
    (h : p.search n (text.drop n) = none) : p.Quiet text n (text.length + 1) := by
  have hquiet := quiet_of_silent hp (silent_of_search h)
  rwa [List.length_drop, ← Nat.add_assoc, Nat.add_sub_cancel' hn] at hquiet

/-- The search passes over positions where nothing is described and gives the preferred match. -/
theorem prefers_of_search (hp : p.forks.Nodup) {ahead : List Char} (hn : n ≤ text.length)
    (h : p.search n (text.drop n) = some (m, ahead)) :
    n ≤ m.whole.start ∧ p.Quiet text n m.whole.start ∧ p.Prefers text m ∧
      ahead = text.drop m.whole.stop := by
  obtain ⟨k, hk, hsilent, s, hrun, rfl, rfl⟩ := search_eq_some h
  rw [List.length_drop] at hk
  rw [List.drop_drop] at hrun
  have hle : n + k ≤ text.length := by omega
  refine ⟨Nat.le_add_right n k, quiet_of_silent hp hsilent, ⟨hle, ?_⟩, ?_⟩
  · rw [matchAt?, hrun]
    rfl
  · exact (covers_of_mem_outcomes (at_drop hle _) (runAt_mem_outcomes hrun)).1.rest_eq

/-- How a scan goes on from a position: it passes over what is quiet and takes a match, or skips the
empty match at the place where one has just ended. -/
inductive Scans (p : Pattern) (text : List Char) : Nat → Bool → List Match → Prop
  | done {n : Nat} {justEnded : Bool} (quiet : p.Quiet text n (text.length + 1)) :
      Scans p text n justEnded []
  | take {n : Nat} {justEnded : Bool} {m : Match} {found : List Match}
      (le_start : n ≤ m.whole.start) (quiet : p.Quiet text n m.whole.start)
      (prefers : p.Prefers text m) (lt_stop : justEnded → n < m.whole.stop)
      (later : Scans p text m.whole.stop true found) : Scans p text n justEnded (m :: found)
  | skip {n : Nat} {m : Match} {found : List Match} (prefers : p.Prefers text m)
      (start_eq : m.whole.start = n) (stop_eq : m.whole.stop = n)
      (later : Scans p text (n + 1) false found) : Scans p text n true found

/-- A match after which as much lies ahead as before is empty and stands where the search began. -/
theorem isEmpty_of_search (hp : p.forks.Nodup) {ahead : List Char} (hn : n ≤ text.length)
    (h : p.search n (text.drop n) = some (m, ahead))
    (hlength : ¬ahead.length < (text.drop n).length) : m.whole.start = n ∧ m.whole.stop = n := by
  obtain ⟨hle, -, hprefers, rfl⟩ := prefers_of_search hp hn h
  have hstop := hprefers.start_le_stop
  have hend := hprefers.stop_le
  rw [List.length_drop, List.length_drop] at hlength
  omega

theorem scans_scan (hp : p.forks.Nodup) (hn : n ≤ text.length) :
    p.Scans text n justEnded (p.scan n (text.drop n) justEnded) := by
  generalize hrest : text.drop n = rest
  fun_induction p.scan n rest justEnded with
  | case1 n rest justEnded hsearch => exact .done (quiet_of_search hp hn (hrest ▸ hsearch))
  | case2 n rest justEnded m ahead hsearch hshorter ih =>
    obtain ⟨hle, hquiet, hprefers, hahead⟩ := prefers_of_search hp hn (hrest ▸ hsearch)
    have hlt : n < m.whole.stop := by
      rw [hahead, ← hrest, List.length_drop, List.length_drop] at hshorter
      omega
    exact .take hle hquiet hprefers (fun _ => hlt) (ih hprefers.stop_le hahead.symm)
  | case3 n m ahead hsearch hshorter =>
    rw [← hrest] at hsearch hshorter
    obtain ⟨-, -, hprefers, -⟩ := prefers_of_search hp hn hsearch
    obtain ⟨hstart, hstop⟩ := isEmpty_of_search hp hn hsearch hshorter
    have hend : text.length ≤ n := List.drop_eq_nil_iff.mp hrest
    exact .skip hprefers hstart hstop (.done fun i hi _ hle => absurd hle (by omega))
  | case4 n m ahead c rest hsearch hshorter ih =>
    rw [← hrest] at hsearch hshorter
    obtain ⟨-, -, hprefers, -⟩ := prefers_of_search hp hn hsearch
    obtain ⟨hstart, hstop⟩ := isEmpty_of_search hp hn hsearch hshorter
    have hlt : n < text.length := by
      have hlength := congrArg List.length hrest
      rw [List.length_drop, List.length_cons] at hlength
      omega
    have htail : text.drop (n + 1) = rest := by
      rw [← List.drop_drop, hrest, List.drop_one, List.tail_cons]
    exact .skip hprefers hstart hstop (ih hlt htail)
  | case5 n rest justEnded m ahead hsearch hshorter hfresh ih =>
    subst hrest
    obtain ⟨hle, hquiet, hprefers, -⟩ := prefers_of_search hp hn hsearch
    obtain ⟨-, hstop⟩ := isEmpty_of_search hp hn hsearch hshorter
    have hlater := ih hn rfl
    exact .take hle hquiet hprefers (fun hended => absurd hended hfresh) (by rwa [hstop])

namespace Scans

theorem le_start (h : p.Scans text n justEnded found) : ∀ m ∈ found, n ≤ m.whole.start := by
  induction h with
  | done _ => exact fun m hm => absurd hm List.not_mem_nil
  | take hle _ prefers _ _ ih =>
    refine List.forall_mem_cons.mpr ⟨hle, fun m hm => ?_⟩
    exact (hle.trans prefers.start_le_stop).trans (ih m hm)
  | skip _ _ _ _ ih => exact fun m hm => (Nat.le_succ _).trans (ih m hm)

theorem prefers (h : p.Scans text n justEnded found) : ∀ m ∈ found, p.Prefers text m := by
  induction h with
  | done _ => exact fun m hm => absurd hm List.not_mem_nil
  | take _ _ prefers _ _ ih => exact List.forall_mem_cons.mpr ⟨prefers, ih⟩
  | skip _ _ _ _ ih => exact ih

/-- Where a match has just ended, all later ones end later. -/
theorem lt_stop (h : p.Scans text n justEnded found) (hended : justEnded) :
    ∀ m ∈ found, n < m.whole.stop := by
  induction h with
  | done _ => exact fun m hm => absurd hm List.not_mem_nil
  | take hle _ prefers lt_stop _ ih =>
    refine List.forall_mem_cons.mpr ⟨lt_stop hended, fun m hm => ?_⟩
    exact (hle.trans prefers.start_le_stop).trans_lt (ih rfl m hm)
  | skip _ _ _ later _ => exact fun m hm =>
    (later.le_start m hm).trans (later.prefers m hm).start_le_stop

/-- Each match begins at or after the end of those before it, and ends after it. -/
theorem pairwise (h : p.Scans text n justEnded found) :
    found.Pairwise fun m m' => m.whole.stop ≤ m'.whole.start ∧ m.whole.stop < m'.whole.stop := by
  induction h with
  | done _ => exact .nil
  | take _ _ _ _ later ih =>
    exact .cons (fun m hm => ⟨later.le_start m hm, later.lt_stop rfl m hm⟩) ih
  | skip _ _ _ _ ih => exact ih

/-- Nothing begins outside the matches, unless it was skipped where the scan went on. -/
theorem quiet_outside (h : p.Scans text n justEnded found) (hle : n ≤ i) (hi : i ≤ text.length)
    (hended : justEnded → n ≠ i) (houtside : ∀ m ∈ found, i < m.whole.start ∨ m.whole.stop < i) :
    ∀ e, ¬p.Covers text i e := by
  induction h with
  | done quiet => exact quiet i hle (Nat.lt_succ_of_le hi) hi
  | take _ quiet _ _ _ ih =>
    obtain ⟨hfirst, hlater⟩ := List.forall_mem_cons.mp houtside
    rcases hfirst with hbefore | hafter
    · exact quiet i hle hbefore hi
    · exact ih hafter.le (fun _ => hafter.ne) hlater
  | skip _ _ _ _ ih => exact ih (Nat.lt_of_le_of_ne hle (hended rfl)) nofun houtside

/-- What begins where a match has just ended is found next, or it is empty. -/
theorem next_of_covers (h : p.Scans text n true found) (hn : n ≤ text.length)
    (hcovers : p.Covers text n j) :
    (∃ m later, found = m :: later ∧ m.whole.start = n) ∨
      ∃ m, p.Prefers text m ∧ m.whole.start = n ∧ m.whole.stop = n := by
  cases h with
  | done quiet => exact absurd hcovers (quiet n le_rfl (Nat.lt_succ_of_le hn) hn j)
  | @take _ _ m later hle quiet _ _ _ =>
    rcases hle.eq_or_lt with heq | hlt
    · exact .inl ⟨m, later, rfl, heq.symm⟩
    · exact absurd hcovers (quiet n le_rfl hlt hn j)
  | @skip _ m _ prefers start_eq stop_eq _ => exact .inr ⟨m, prefers, start_eq, stop_eq⟩

/-- After each match the scan goes on where it ends. -/
theorem later {before after : List Match} (h : p.Scans text n justEnded (before ++ m :: after)) :
    p.Scans text m.whole.stop true after := by
  generalize hfound : before ++ m :: after = found at h
  induction h generalizing before with
  | done _ => exact absurd hfound (by simp)
  | take _ _ _ _ later ih =>
    cases before with
    | nil =>
      obtain ⟨rfl, rfl⟩ := List.cons.inj hfound
      exact later
    | cons _ before => exact ih (List.cons.inj hfound).2
  | skip _ _ _ _ ih => exact ih hfound

end Scans

/-- What it is to scan a text: the matches are those that the pattern prefers where they begin, in
order and apart, and no others could be added. -/
structure IsScan (p : Pattern) (text : List Char) (found : List Match) : Prop where
  length_le : found.length ≤ text.length + 1
  prefers : ∀ m ∈ found, p.Prefers text m
  covers : ∀ m ∈ found, p.Covers text m.whole.start m.whole.stop
  cuts : ∀ m ∈ found, ∀ g, some g ∈ m.spans →
    g.Cuts text ∧ m.whole.start ≤ g.start ∧ g.stop ≤ m.whole.stop
  ordered : found.Pairwise fun m m' => m.whole.stop ≤ m'.whole.start
  distinct : found.Nodup
  /-- No empty match follows directly on another match. -/
  not_empty : found.Pairwise fun m m' =>
    m'.whole.start = m.whole.stop → m'.whole.start < m'.whole.stop
  /-- Nothing begins before the first match, after the last one or between two of them. -/
  quiet_outside : ∀ i ≤ text.length, (∀ m ∈ found, i < m.whole.start ∨ m.whole.stop < i) →
    ∀ j, ¬p.Covers text i j
  /-- What begins where a match ends is the next one, or an empty match that does not count. -/
  at_stop : ∀ before m after, found = before ++ m :: after → (∃ j, p.Covers text m.whole.stop j) →
    (∃ m' later, after = m' :: later ∧ m'.whole.start = m.whole.stop) ∨
      ∃ m', p.Prefers text m' ∧ m'.whole.start = m.whole.stop ∧ m'.whole.stop = m.whole.stop

theorem isScan_findAll (hp : p.forks.Nodup) (text : List Char) :
    p.IsScan text (p.findAll text) := by
  have hscans : p.Scans text 0 false (p.findAll text) := scans_scan hp (Nat.zero_le _)
  have hstops : ((p.findAll text).map (·.whole.stop)).Pairwise (· < ·) :=
    List.pairwise_map.mpr (hscans.pairwise.imp And.right)
  refine ⟨?_, hscans.prefers, fun m hm => (hscans.prefers m hm).covers, ?_,
    hscans.pairwise.imp And.left, ?_, ?_, fun i hi =>
    hscans.quiet_outside (Nat.zero_le i) hi nofun, ?_⟩
  · have hsub : (p.findAll text).map (·.whole.stop) ⊆ List.range (text.length + 1) := by
      intro e he
      obtain ⟨m, hm, rfl⟩ := List.mem_map.mp he
      exact List.mem_range.mpr (Nat.lt_succ_of_le (hscans.prefers m hm).stop_le)
    have hle := (List.Nodup.subperm (hstops.imp Nat.ne_of_lt) hsub).length_le
    rwa [List.length_map, List.length_range] at hle
  · intro m hm g hg
    have hprefers := hscans.prefers m hm
    rcases List.mem_cons.mp hg with hg | hg
    · obtain rfl := Option.some.inj hg
      exact ⟨Span.cuts_of_le hprefers.start_le_stop hprefers.stop_le, le_rfl, le_rfl⟩
    · obtain ⟨hstart, horder, hstop⟩ := hprefers.groups hg
      exact ⟨Span.cuts_of_le horder (hstop.trans hprefers.stop_le), hstart, hstop⟩
  · exact (List.pairwise_map.mp hstops).imp fun hlt heq => absurd (heq ▸ hlt) (lt_irrefl _)
  · exact hscans.pairwise.imp fun ⟨_, hlt⟩ heq => heq ▸ hlt
  · intro before m after hfound ⟨j, hcovers⟩
    rw [hfound] at hscans
    have hm := hscans.prefers m (List.mem_append_right _ List.mem_cons_self)
    exact hscans.later.next_of_covers hm.stop_le hcovers

/-- There is something to find just if the pattern describes some part of the text. -/
theorem IsScan.ne_nil_iff (h : p.IsScan text found) :
    found ≠ [] ↔ ∃ i ≤ text.length, ∃ j, p.Covers text i j := by
  constructor
  · intro hne
    obtain ⟨m, hm⟩ := List.exists_mem_of_ne_nil found hne
    exact ⟨m.whole.start, (h.prefers m hm).start_le, m.whole.stop, h.covers m hm⟩
  · rintro ⟨i, hi, j, hcovers⟩ rfl
    exact h.quiet_outside i hi (fun m hm => absurd hm List.not_mem_nil) j hcovers

end Pattern

theorem findRules_eq (rules : List Rule) (text : String) :
    findRules rules text = (rules.filter fun r => r.findAll text ≠ []).map fun r =>
      (r, r.findAll text) := by
  rw [findRules, List.filter_map]
  congr 2
  funext r
  cases h : r.findAll text <;> simp [h]

/-- A rule finds all that there is to find, from left to right; the rules that find something are
those that are kept, in their order. -/
theorem Rule.scan_misses_nothing (r : Rule) (rules : List Rule) (text : String) :
    r.regex.pattern.IsScan text.toList (r.findAll text) ∧
      (r.findAll text ≠ [] ↔ ∃ i ≤ text.toList.length, ∃ j,
        r.regex.pattern.Covers text.toList i j) ∧
      findRules rules text = (rules.filter fun r => r.findAll text ≠ []).map fun r =>
        (r, r.findAll text) := by
  have hscan := Pattern.isScan_findAll r.regex.nodup_forks text.toList
  exact ⟨hscan, hscan.ne_nil_iff, findRules_eq rules text⟩

/-- The empty match after the run of letters is skipped, those before it and at the end of the text
are not. -/
example : ((Pattern.repeated true (.char 'a') 0 none).findAll "baac".toList).map Match.whole =
    [⟨0, 0⟩, ⟨1, 3⟩, ⟨4, 4⟩] := by decide +kernel

/-- A loop ends with a round that takes nothing, and the rest of that round is not tried again. -/
example : ((Pattern.parse? "(?:a?b??)+").map fun p => (p.findAll "ab".toList).map Match.whole) =
    some [⟨0, 1⟩, ⟨2, 2⟩] := by decide +kernel

end MigrationAudit
