import MigrationAudit.Proofs.FoundMatches
import MigrationAudit.Proofs.Stretches

namespace MigrationAudit.Stretch

open Pattern
open Text (EndsLine starts mem_starts_singleton exists_line length_filter_starts_lt
  length_filter_starts_ge)

variable {w : Stretch} {p : Pattern} {line tail : List Char} {n k : Nat}

section Scan

variable (hp : w.IsPattern p) (hline : '\n' ∉ line) (htail : EndsLine tail)
include hp hline htail

theorem scan_of_taken? (h : w.taken? line = some k) (justEnded : Bool) :
    (p.scan n (line ++ tail) justEnded).length =
      1 + (p.scan (n + k) (line.drop k ++ tail) true).length := by
  have hrun := runAt_eq hp hline htail n
  rw [h, Option.map_some] at hrun
  rw [scan_of_runAt_eq_some (neverEmpty hp) justEnded hrun, List.length_cons, Nat.add_comm,
    Progress.advance, List.drop_append_of_le_length (taken?_le h).2]

/-- A part of a line in which only single words are taken adds them to the matches. -/
theorem length_scan_singles (hk : k ≤ line.length) (hreach : ∀ i < k, w.reach? (line.drop i) = none)
    (hfit : ∀ i < k, w.single.toList <+: line.drop i → i + w.single.toList.length ≤ k)
    (n : Nat) (justEnded other : Bool) :
    (p.scan n (line ++ tail) justEnded).length =
      ((starts [w.single] line).filter (· < k)).length +
        (p.scan (n + k) (line.drop k ++ tail) other).length := by
  induction k using Nat.strongRecOn generalizing line n justEnded with
  | ind k ih =>
    have hnever := neverEmpty hp
    rcases k.eq_zero_or_pos with rfl | hpos
    · rw [List.filter_eq_nil_iff.mpr (by simp), scan_eq_search hnever, scan_eq_search hnever]
      exact (Nat.zero_add _).symm
    -- the rest of the part, from a later position on
    have hlater : ∀ i, 0 < i → i ≤ k → ∀ justEnded,
        (p.scan (n + i) (line.drop i ++ tail) justEnded).length =
        ((starts [w.single] (line.drop i)).filter (· < k - i)).length +
          (p.scan (n + k) (line.drop k ++ tail) other).length := by
      intro i hi hik justEnded
      have hle : k - i ≤ (line.drop i).length := by
        rw [List.length_drop]
        omega
      have hrest := ih (k - i) (by omega) (fun h => hline (List.mem_of_mem_drop h)) hle
        (fun j hj => by
          rw [List.drop_drop]
          exact hreach (i + j) (by omega))
        (fun j hj hsingle => by
          rw [List.drop_drop] at hsingle
          have hstop := hfit (i + j) (by omega) hsingle
          omega) (n + i) justEnded
      rwa [List.drop_drop, Nat.add_assoc, Nat.add_sub_cancel' hik] at hrest
    by_cases hsingle : w.single.toList <+: line
    · have hstop := hfit 0 hpos hsingle
      rw [Nat.zero_add] at hstop
      rw [scan_of_taken? hp hline htail (taken?_of_single hsingle), hlater _ w.single_pos hstop,
        length_filter_starts_lt _ hsingle.length_le hstop,
        w.single_outside.length_filter_starts hsingle w.single_pos, Nat.add_assoc]
    · cases line with
      | nil => exact absurd hk (Nat.not_le.mpr hpos)
      | cons c line =>
        have hreach0 : w.reach? (c :: line) = none := hreach 0 hpos
        have hrun := runAt_eq hp hline htail n
        rw [taken?_eq_none hreach0 hsingle, Option.map_none, List.cons_append] at hrun
        have hnone : (starts [w.single] (c :: line)).filter (· < 1) = [] := by
          refine List.filter_eq_nil_iff.mpr fun i hi => ?_
          rw [decide_eq_true_iff, Nat.lt_one_iff]
          rintro rfl
          exact hsingle (mem_starts_singleton.mp hi).2
        rw [List.cons_append, scan_of_runAt_eq_none hnever justEnded false hrun,
          length_filter_starts_lt _ (List.length_pos_iff.mpr (List.cons_ne_nil c line)) hpos, hnone]
        exact (hlater 1 Nat.one_pos hpos false).trans (Nat.zero_add _ ▸ rfl)

/-- Where there is no stretch in the line all single words are found. -/
theorem length_scan_of_no_stretch (hreach : ∀ i < line.length, w.reach? (line.drop i) = none)
    (n : Nat) (justEnded other : Bool) :
    (p.scan n (line ++ tail) justEnded).length =
      (starts [w.single] line).length + (p.scan (n + line.length) tail other).length := by
  have hall : (starts [w.single] line).filter (· < line.length) = starts [w.single] line := by
    refine List.filter_eq_self.mpr fun i hi => decide_eq_true ?_
    have hle := Text.add_length_le_of_mem_starts hi
    have hpos := w.single_pos
    omega
  have hfit : ∀ i < line.length, w.single.toList <+: line.drop i →
      i + w.single.toList.length ≤ line.length :=
    fun i hi hsingle => Text.add_length_le_of_mem_starts (mem_starts_singleton.mpr ⟨hi.le, hsingle⟩)
  rw [length_scan_singles hp hline htail le_rfl hreach hfit n justEnded other, hall,
    List.drop_length, List.nil_append]

end Scan

/-- What is found in a line that has a stretch: the single words before it, the stretch, those after
it. -/
theorem length_scan_of_stretch (hp : w.IsPattern p) (hline : '\n' ∉ line) (htail : EndsLine tail)
    {r b : Nat} (hr : (starts [w.opening] line).head? = some r)
    (hb : (starts [w.closing] line).getLast? = some b) (hrb : r < b) (n : Nat)
    (justEnded other : Bool) :
    (p.scan n (line ++ tail) justEnded).length =
      ((starts [w.single] line).filter (· < r)).length + 1 +
        ((starts [w.single] line).filter (b + w.closing.toList.length ≤ ·)).length +
        (p.scan (n + line.length) tail other).length := by
  have hopening := List.mem_of_head? hr
  obtain ⟨hrle, hprefix⟩ := mem_starts_singleton.mp hopening
  have hend := Text.add_length_le_of_mem_starts (List.mem_of_getLast? hb)
  -- up to the first opening word there are only single words
  have hbefore : ∀ i < r, w.reach? (line.drop i) = none := by
    intro i hi
    refine Option.eq_none_iff_forall_ne_some.mpr fun k hk => ?_
    have hle := Text.le_of_mem_starts_head? (exists_of_reach? (hi.le.trans hrle) hk).1 hr
    omega
  have hfit : ∀ i < r, w.single.toList <+: line.drop i → i + w.single.toList.length ≤ r := by
    intro i hi hsingle
    by_contra hlt
    apply w.opening_outside.not_begins hsingle (Nat.sub_pos_of_lt hi) (by omega)
    rwa [List.drop_drop, Nat.add_sub_cancel' hi.le]
  have hstretch : w.taken? (line.drop r) = some (b - r + w.closing.toList.length) := by
    rw [taken?_of_opening hprefix, reach?_drop hopening hb hrb]
  have hstop : r + (b - r + w.closing.toList.length) = b + w.closing.toList.length := by omega
  -- after the last closing word as well
  have hafter : ∀ i < (line.drop (b + w.closing.toList.length)).length,
      w.reach? ((line.drop (b + w.closing.toList.length)).drop i) = none := by
    intro i hi
    rw [List.length_drop] at hi
    rw [List.drop_drop]
    refine Option.eq_none_iff_forall_ne_some.mpr fun k hk => ?_
    obtain ⟨-, d, hd, hlt⟩ := exists_of_reach? (by omega) hk
    have hle := Text.le_of_mem_starts_getLast? hd hb
    omega
  rw [length_scan_singles hp hline htail hrle hbefore hfit n justEnded false,
    scan_of_taken? hp (fun h => hline (List.mem_of_mem_drop h)) htail hstretch, List.drop_drop,
    Nat.add_assoc n, hstop,
    length_scan_of_no_stretch hp (fun h => hline (List.mem_of_mem_drop h)) htail hafter _ true
      other,
    length_filter_starts_ge _ hend, List.length_drop, Nat.add_assoc n, Nat.add_sub_cancel' hend,
    Nat.add_assoc, Nat.add_assoc]

theorem length_scan_line (hp : w.IsPattern p) (hline : '\n' ∉ line) (htail : EndsLine tail)
    (n : Nat) (justEnded other : Bool) : (p.scan n (line ++ tail) justEnded).length =
      w.count line + (p.scan (n + line.length) tail other).length := by
  have hnone (h : ∀ r b, (starts [w.opening] line).head? = some r →
      (starts [w.closing] line).getLast? = some b → ¬r < b) :
      ∀ i < line.length, w.reach? (line.drop i) = none := by
    intro i hi
    refine Option.eq_none_iff_forall_ne_some.mpr fun k hk => ?_
    obtain ⟨hopening, d, hclosing, hlt⟩ := exists_of_reach? hi.le hk
    obtain ⟨r, hr⟩ := Option.isSome_iff_exists.mp
      (List.isSome_head?.mpr (List.ne_nil_of_mem hopening))
    obtain ⟨b, hb⟩ := Option.isSome_iff_exists.mp
      (List.getLast?_isSome.mpr (List.ne_nil_of_mem hclosing))
    have hrle := Text.le_of_mem_starts_head? hopening hr
    have hleb := Text.le_of_mem_starts_getLast? hclosing hb
    exact h r b hr hb (by omega)
  unfold count
  split
  · next r b hr hb =>
    split_ifs with hrb
    · exact length_scan_of_stretch hp hline htail hr hb hrb n justEnded other
    · refine length_scan_of_no_stretch hp hline htail (hnone fun r' b' hr' hb' => ?_) n
        justEnded other
      rw [hr] at hr'
      rw [hb] at hb'
      obtain rfl := Option.some.inj hr'
      obtain rfl := Option.some.inj hb'
      exact hrb
  · next hno =>
    have hreach := hnone fun r b hr hb => absurd hb (hno r b hr)
    exact length_scan_of_no_stretch hp hline htail hreach n justEnded other

/-- All that is found in a text, line by line. -/
theorem length_findAll (hp : w.IsPattern p) (text : List Char) :
    (p.findAll text).length = w.total text := by
  suffices ∀ n justEnded, (p.scan n text justEnded).length = w.total text from this 0 false
  induction hlength : text.length using Nat.strongRecOn generalizing text with
  | ind l ih =>
    subst hlength
    intro n justEnded
    obtain ⟨line, tail, rfl, hline, htail⟩ := exists_line text
    have hnever := neverEmpty hp
    rw [length_scan_line hp hline htail n justEnded false]
    cases tail with
    | nil =>
      rw [scan_nil hnever, List.append_nil, total, List.splitOn_eq_singleton hline,
        List.map_singleton, List.sum_singleton, List.length_nil, Nat.add_zero]
    | cons c rest =>
      obtain rfl : c = '\n' := htail c rfl
      have hrun : p.runAt (n + line.length) ('\n' :: rest) = none := by
        have hfeed := runAt_eq hp List.not_mem_nil htail (n + line.length)
        cases htaken : w.taken? [] with
        | none => rwa [htaken] at hfeed
        | some k => exact absurd (taken?_le htaken).2 (Nat.not_le.mpr (taken?_le htaken).1)
      have hshorter : rest.length < (line ++ '\n' :: rest).length := by
        rw [List.length_append, List.length_cons]
        omega
      rw [scan_of_runAt_eq_none hnever false false hrun, ih rest.length hshorter rest rfl, total,
        total, List.splitOn_append_cons_self_of_not_mem hline, List.map_cons, List.sum_cons]

variable {text : List Char} {m m' : Match}

/-- A match takes what there is to take at the head of the line it begins in. -/
theorem taken?_of_prefers (hp : w.IsPattern p) (h : p.Prefers text m)
    (hsplit : text.drop m.whole.start = line ++ tail) (hline : '\n' ∉ line)
    (htail : EndsLine tail) :
    ∃ k, w.taken? line = some k ∧ m.whole.stop = m.whole.start + k ∧
      m.whole.slice text = line.take k := by
  obtain ⟨s, hrun, hstop, -⟩ := h.exists_run
  rw [hsplit, runAt_eq hp hline htail] at hrun
  obtain ⟨k, hk, rfl⟩ := Option.map_eq_some_iff.mp hrun
  refine ⟨k, hk, hstop, ?_⟩
  rw [Span.slice, hstop, hsplit, Progress.advance, Nat.add_sub_cancel_left,
    List.take_append_of_le_length (taken?_le hk).2]

theorem feed_not_mem_slice (hp : w.IsPattern p) (h : p.Prefers text m) :
    '\n' ∉ m.whole.slice text := by
  obtain ⟨line, tail, hsplit, hline, htail⟩ := exists_line (text.drop m.whole.start)
  obtain ⟨k, -, -, hslice⟩ := taken?_of_prefers hp h hsplit hline htail
  rw [hslice]
  exact fun hmem => hline (List.mem_of_mem_take hmem)

/-- Between two matches that begin with the opening word the line ends. -/
theorem feed_between (hp : w.IsPattern p) (h : p.Prefers text m) (h' : p.Prefers text m')
    (hle : m.whole.stop ≤ m'.whole.start) (hopening : w.opening.toList <+: m.whole.slice text)
    (hopening' : w.opening.toList <+: m'.whole.slice text) :
    '\n' ∈ Span.slice text ⟨m.whole.stop, m'.whole.start⟩ := by
  obtain ⟨line, tail, hsplit, hline, htail⟩ := exists_line (text.drop m.whole.start)
  obtain ⟨k, hk, hstop, hslice⟩ := taken?_of_prefers hp h hsplit hline htail
  rw [hslice] at hopening
  have hreach : w.reach? line = some k := by
    rw [← taken?_of_opening (hopening.trans (List.take_prefix k line)), hk]
  have hkle := (taken?_le hk).2
  obtain ⟨g, hg⟩ := Nat.exists_eq_add_of_le hle
  have hbetween : Span.slice text ⟨m.whole.stop, m'.whole.start⟩ =
      (line.drop k ++ tail).take g := by
    rw [Span.slice, hg, Nat.add_sub_cancel_left, hstop, ← List.drop_drop, hsplit,
      List.drop_append_of_le_length hkle]
  have hahead : text.drop m'.whole.start = (line ++ tail).drop (k + g) := by
    rw [hg, hstop, Nat.add_assoc, ← List.drop_drop, hsplit]
  rcases Nat.lt_or_ge line.length (k + g) with hbeyond | hwithin
  · cases tail with
    | nil =>
      have hnil : text.drop m'.whole.start = [] := by
        rw [hahead, List.append_nil, List.drop_eq_nil_iff]
        exact hbeyond.le
      rw [Span.slice, hnil, List.take_nil, List.prefix_nil] at hopening'
      exact absurd (congrArg List.length hopening') w.opening_pos.ne'
    | cons c rest =>
      obtain rfl : c = '\n' := htail c rfl
      rw [hbetween, List.take_append, List.length_drop, List.mem_append]
      obtain ⟨d, hd⟩ := Nat.exists_eq_add_of_lt (show line.length - k < g by omega)
      right
      rw [hd, Nat.add_assoc, Nat.add_sub_cancel_left, List.take_succ_cons]
      exact List.mem_cons_self
  · rw [List.drop_append_of_le_length hwithin] at hahead
    obtain ⟨k', hk', -, hslice'⟩ :=
      taken?_of_prefers hp h' hahead (fun hmem => hline (List.mem_of_mem_drop hmem)) htail
    rw [hslice'] at hopening'
    rw [taken?_of_opening (hopening'.trans (List.take_prefix k' _)),
      reach?_drop_eq_none hreach (Nat.le_add_right k g) hwithin] at hk'
    cases hk'

end MigrationAudit.Stretch
