import MigrationAudit.Proofs.Arguments
import Mathlib.Data.List.TakeWhile

namespace MigrationAudit

namespace CommandLine

/-- An option with its value, in one argument or in two. -/
structure Assignment where
  key : Key
  value : String
  joined : Bool

namespace Assignment

def args (a : Assignment) : List String :=
  if a.joined then ["--" ++ (a.key.name ++ ("=" ++ a.value))] else ["--" ++ a.key.name, a.value]

/-- In an argument of its own a value must not look like an option. -/
def Readable (a : Assignment) : Prop := a.joined ∨ ∀ c rest, a.value.toList ≠ '-' :: c :: rest

def pair (a : Assignment) : Key × String := (a.key, a.value)

end Assignment

namespace Given

variable {g g' : Given} {key : Key} {name value arg : String} {a : Assignment}

theorem long_some : g.long (some .scan) key.name (some value) = g.settle >>= (·.put key value) := by
  cases key <;> rfl

theorem long_none : g.long (some .scan) key.name none =
    g.settle >>= fun g => .ok { g with pending := .key key } := by
  cases key <;> rfl

theorem no_sign (key : Key) : ∀ c ∈ key.name.toList, decide (c ≠ '=') = true := by
  cases key <;> simp [Key.name]

theorem argument_joined : g.argument (some .scan) ("--" ++ (key.name ++ ("=" ++ value))) =
    g.settle >>= (·.put key value) := by
  have htext : ("--" ++ (key.name ++ ("=" ++ value))).toList =
      '-' :: '-' :: (key.name.toList ++ '=' :: value.toList) := by
    simp [String.toList_append]
  rw [argument, htext, ← long_some]
  simp only [List.takeWhile_append_of_pos (no_sign key), List.dropWhile_append_of_pos (no_sign key)]
  simp

theorem argument_name : g.argument (some .scan) ("--" ++ key.name) =
    g.settle >>= fun g => .ok { g with pending := .key key } := by
  have htext : ("--" ++ key.name).toList = '-' :: '-' :: key.name.toList := by
    simp [String.toList_append]
  rw [argument, htext, ← long_none]
  simp only [List.takeWhile_eq_self_iff.mpr (no_sign key),
    List.dropWhile_eq_nil_iff.mpr (no_sign key), String.ofList_toList]

theorem argument_value (hkey : g.pending = .key key)
    (h : ∀ c rest, value.toList ≠ '-' :: c :: rest) : g.argument (some .scan) value =
      .ok { g with pending := .value key value } := by
  unfold argument
  split
  · next heq => exact absurd heq (h _ _)
  · next heq => exact absurd heq (h _ _)
  · simp [hkey]

theorem readAll_cons {verb : Verb} {args : List String} (h : arg ≠ "--") :
    g.readAll verb (arg :: args) = g.argument (some verb) arg >>= (·.readAll verb args) := by
  rw [readAll]
  exact h

theorem settle_of_paths {paths : List String} (h : g.pending = .paths paths) : g.settle = .ok g' ↔
    "" ∉ paths ∧ g' = { g with pending := .nothing, paths := g.paths ++ paths } := by
  unfold settle
  rw [h]
  simp only [List.contains_iff_mem]
  split_ifs with hempty
  · simp [hempty]
  · simp [hempty, eq_comm]

theorem pending_of_settle (h : g.settle = .ok g') : g'.pending = .nothing := by
  unfold settle at h
  split at h
  · cases h
    rfl
  · cases h
  · obtain ⟨-, -, rfl⟩ := put_eq_ok_iff.mp h
    rfl
  · split_ifs at h
    cases h
    rfl

theorem foldlM_positional {first paths : List String} (h : g.pending = .paths first) :
    paths.foldlM (positional (some .scan)) g =
      .ok { g with pending := .paths (first ++ paths) } := by
  induction paths generalizing g first with
  | nil =>
    rw [List.append_nil, ← h]
    rfl
  | cons path paths ih =>
    have hnext : g.positional (some .scan) path =
        .ok { g with pending := .paths (first ++ [path]) } := by
      rw [positional, h]
    rw [List.foldlM_cons, hnext]
    exact (ih rfl).trans (by rw [List.append_assoc]; rfl)

theorem positional_of_ne_paths {path : String} (h : ∀ first, g.pending ≠ .paths first) :
    g.positional (some .scan) path = g.settle >>= fun g =>
      .ok { g with pending := .paths [path] } := by
  unfold positional
  dsimp only
  split
  · next first hpending => exact absurd hpending (h first)
  · rfl

/-- After a double dash that stands alone all arguments are paths. -/
theorem readAll_paths {paths : List String} : g.readAll .scan ("--" :: paths) = .ok g' ↔
    ∃ settled, g.settle = .ok settled ∧ "" ∉ paths ∧
      g' = { settled with paths := settled.paths ++ paths } := by
  rw [readAll, bind_eq_ok_iff]
  by_cases hpaths : ∃ first, g.pending = .paths first
  · obtain ⟨first, hpending⟩ := hpaths
    rw [foldlM_positional hpending]
    simp only [settle_of_paths hpending, Except.ok.injEq, exists_eq_left']
    rw [settle_of_paths rfl]
    simp only [List.mem_append, not_or, and_assoc, exists_and_left, exists_eq_left,
      List.append_assoc]
  · cases paths with
    | nil =>
      simp only [List.foldlM_nil, List.append_nil, List.not_mem_nil, not_false_eq_true, true_and]
      constructor
      · rintro ⟨_, ⟨⟩, hsettle⟩
        exact ⟨g', hsettle, rfl⟩
      · rintro ⟨_, hsettle, rfl⟩
        exact ⟨g, rfl, hsettle⟩
    | cons path paths =>
      rw [List.foldlM_cons, positional_of_ne_paths fun first h => hpaths ⟨first, h⟩]
      simp only [bind_eq_ok_iff, Except.ok.injEq]
      have hsame {settled : Given} (hsettle : g.settle = .ok settled) (more : List String) :
          { settled with paths := more } = { settled with pending := .nothing, paths := more } := by
        rw [← pending_of_settle hsettle]
      constructor
      · rintro ⟨_, ⟨_, ⟨settled, hsettle, rfl⟩, hfold⟩, hlast⟩
        rw [foldlM_positional rfl] at hfold
        cases hfold
        obtain ⟨hne, rfl⟩ := (settle_of_paths rfl).mp hlast
        exact ⟨settled, hsettle, hne, (hsame hsettle _).symm⟩
      · rintro ⟨settled, hsettle, hne, rfl⟩
        refine ⟨_, ⟨_, ⟨settled, hsettle, rfl⟩, foldlM_positional rfl⟩, ?_⟩
        exact (settle_of_paths rfl).mpr ⟨hne, hsame hsettle _⟩

def putAll (g : Given) (options : List Assignment) : Except ArgumentError Given :=
  options.foldlM (fun g a => g.put a.key a.value) g

theorem putAll_cons {options : List Assignment} :
    g.putAll (a :: options) = g.put a.key a.value >>= (·.putAll options) := by
  rw [putAll, List.foldlM_cons]
  rfl

theorem putAll_eq_ok_iff {options : List Assignment} (h : (g.values.map Prod.fst).Nodup) :
    g.putAll options = .ok g' ↔ (options.map Assignment.key ++ g.values.map Prod.fst).Nodup ∧
      (∀ a ∈ options, ¬(a.key = .root ∧ a.value = "")) ∧
        g' = { g with values := (options.map Assignment.pair).reverse ++ g.values } := by
  induction options generalizing g with
  | nil =>
    change Except.ok g = Except.ok g' ↔ _
    rw [Except.ok.injEq, eq_comm]
    simp [h]
  | cons a options ih =>
    rw [putAll_cons, bind_eq_ok_iff, List.map_cons, List.cons_append, ← List.nodup_middle,
      List.forall_mem_cons]
    let given : Given := { g with values := (a.key, a.value) :: g.values }
    have hgiven (hnew : a.key ∉ g.values.map Prod.fst) : (given.values.map Prod.fst).Nodup :=
      List.nodup_cons.mpr ⟨hnew, h⟩
    constructor
    · rintro ⟨next, hput, hrest⟩
      obtain ⟨hnew, hgood, rfl⟩ := put_eq_ok_iff.mp hput
      obtain ⟨honce, hall, rfl⟩ := (ih (hgiven hnew)).mp hrest
      exact ⟨honce, ⟨hgood, hall⟩, by simp [given, Assignment.pair]⟩
    · rintro ⟨honce, ⟨hgood, hall⟩, rfl⟩
      have hnew : a.key ∉ g.values.map Prod.fst :=
        (List.nodup_cons.mp (List.nodup_append.mp honce).2.1).1
      refine ⟨given, put_eq_ok_iff.mpr ⟨hnew, hgood, rfl⟩, (ih (hgiven hnew)).mpr ⟨honce, hall, ?_⟩⟩
      simp [given, Assignment.pair]

theorem settle_of_nothing (h : g.pending = .nothing) : g.settle = .ok g := by
  obtain ⟨verbose, values, paths, pending⟩ := g
  cases h
  rfl

theorem readAll_joined {rest : List String} :
    g.readAll .scan (("--" ++ (key.name ++ ("=" ++ value))) :: rest) =
      g.settle >>= (·.put key value) >>= (·.readAll .scan rest) := by
  rw [readAll_cons, argument_joined]
  intro heq
  have hlength := congrArg String.length heq
  simp at hlength

theorem readAll_apart {rest : List String} (h : ∀ c rest, value.toList ≠ '-' :: c :: rest) :
    g.readAll .scan (("--" ++ key.name) :: value :: rest) =
      g.settle >>= fun g => readAll .scan { g with pending := .value key value } rest := by
  have hvalue : value ≠ "--" := by
    rintro rfl
    exact h '-' [] rfl
  have hname : "--" ++ key.name ≠ "--" := by
    cases key <;> decide +kernel
  rw [readAll_cons hname, argument_name, bind_assoc]
  congr 1
  funext settled
  change readAll .scan { settled with pending := .key key } (value :: rest) = _
  rw [readAll_cons hvalue, argument_value rfl h]
  rfl

/-- However an option is written, it is put once what is pending has been settled. -/
theorem readAll_args (h : a.Readable) : ∃ read : Given → Except ArgumentError Given,
    (∀ settled, settled.pending = .nothing → read settled >>= settle = settled.put a.key a.value) ∧
      ∀ (g : Given) rest, g.readAll .scan (a.args ++ rest) = g.settle >>= read >>=
        (·.readAll .scan rest) := by
  rw [Assignment.args]
  split_ifs with hjoined
  · refine ⟨(·.put a.key a.value), fun settled hsettled => ?_, fun g rest => readAll_joined⟩
    change settled.put a.key a.value >>= settle = _
    cases hput : settled.put a.key a.value with
    | error e => rfl
    | ok next =>
      obtain ⟨-, -, rfl⟩ := put_eq_ok_iff.mp hput
      exact settle_of_nothing hsettled
  · refine ⟨fun settled => .ok { settled with pending := .value a.key a.value }, ?_, ?_⟩
    · intro settled hsettled
      change settle { settled with pending := .value a.key a.value } = _
      obtain ⟨verbose, values, paths, pending⟩ := settled
      cases hsettled
      rfl
    · intro g rest
      rw [bind_assoc]
      exact readAll_apart (h.resolve_left hjoined)

theorem readAll_options {options : List Assignment} (h : ∀ a ∈ options, a.Readable)
    {paths : List String} :
    g.readAll .scan (options.flatMap Assignment.args ++ "--" :: paths) = .ok g' ↔
      ∃ settled, g.settle = .ok settled ∧ ∃ given, settled.putAll options = .ok given ∧ "" ∉ paths ∧
        g' = { given with paths := given.paths ++ paths } := by
  induction options generalizing g with
  | nil =>
    rw [List.flatMap_nil, List.nil_append, readAll_paths]
    simp [putAll, pure, Except.pure]
  | cons a options ih =>
    obtain ⟨ha, hoptions⟩ := List.forall_mem_cons.mp h
    obtain ⟨read, hread, hargs⟩ := readAll_args ha
    rw [List.flatMap_cons, List.append_assoc, hargs, bind_assoc, bind_eq_ok_iff]
    refine exists_congr fun settled => and_congr_right fun hsettle => ?_
    rw [putAll_cons, ← hread settled (pending_of_settle hsettle), bind_assoc, bind_eq_ok_iff]
    simp only [bind_eq_ok_iff, ih hoptions]
    constructor
    · rintro ⟨next, hnext, settled', hsettle', given, hgiven, hgood⟩
      exact ⟨given, ⟨next, hnext, settled', hsettle', hgiven⟩, hgood⟩
    · rintro ⟨given, ⟨next, hnext, settled', hsettle', hgiven⟩, hgood⟩
      exact ⟨next, hnext, settled', hsettle', given, hgiven, hgood⟩

theorem lookup_reverse {values : List (Key × String)} (h : (values.map Prod.fst).Nodup) :
    values.reverse.lookup key = values.lookup key := by
  induction values with
  | nil => rfl
  | cons field values ih =>
    obtain ⟨key', value⟩ := field
    obtain ⟨hnew, hrest⟩ := List.nodup_cons.mp h
    rw [List.reverse_cons, List.lookup_append, ih hrest]
    by_cases hkey : key = key'
    · have hnone : values.lookup key = none := by
        rw [List.lookup_eq_none_iff]
        exact fun p hp => bne_iff_ne.mpr fun heq =>
          hnew (List.mem_map.mpr ⟨p, hp, heq.symm.trans hkey⟩)
      rw [hnone, Option.none_or, hkey, List.lookup_cons_self, List.lookup_cons_self]
    · rw [List.lookup_cons, List.lookup_cons, beq_false_of_ne hkey]
      simp

end Given

end CommandLine

open CommandLine

/-- A scan may be given each option once, in any order, and an option sets its own override. -/
theorem Command.parse_scan_eq_ok_iff {options : List Assignment} (h : ∀ a ∈ options, a.Readable)
    {paths : List String} {c : Command} :
    parse ("scan" :: (options.flatMap Assignment.args ++ "--" :: paths)) = .ok c ↔
      (options.map Assignment.key).Nodup ∧ (∀ a ∈ options, ¬(a.key = .root ∧ a.value = "")) ∧
        "" ∉ paths ∧ c = ⟨false, .scan (paths.map Path.mk) {
          root := ((options.map Assignment.pair).lookup .root).map Path.mk
          output := (options.map Assignment.pair).lookup .output
          view := (options.map Assignment.pair).lookup .filter
          failOn := (options.map Assignment.pair).lookup .failOn }⟩ := by
  have hread : parse ("scan" :: (options.flatMap Assignment.args ++ "--" :: paths)) =
      Given.start.readAll .scan (options.flatMap Assignment.args ++ "--" :: paths) >>= fun given =>
        .ok (given.command .scan false) := rfl
  have hkeys : (options.map Assignment.pair).map Prod.fst = options.map Assignment.key := by
    rw [List.map_map]
    rfl
  have hcommand (honce : (options.map Assignment.key).Nodup) :
      Given.command .scan false ⟨false, (options.map Assignment.pair).reverse ++ [],
        paths, .nothing⟩ =
        ⟨false, .scan (paths.map Path.mk) {
          root := ((options.map Assignment.pair).lookup .root).map Path.mk
          output := (options.map Assignment.pair).lookup .output
          view := (options.map Assignment.pair).lookup .filter
          failOn := (options.map Assignment.pair).lookup .failOn }⟩ := by
    simp only [Given.command, List.append_nil, Given.lookup_reverse (hkeys ▸ honce), Bool.or_self]
  rw [hread, Given.bind_eq_ok_iff]
  simp only [Given.readAll_options h]
  constructor
  · rintro ⟨_, ⟨settled, hsettle, given, hput, hpaths, rfl⟩, hc⟩
    obtain rfl : Given.start = settled := Except.ok.inj hsettle
    obtain ⟨honce, hgood, rfl⟩ := (Given.putAll_eq_ok_iff Given.sound_start.once).mp hput
    have honce' : (options.map Assignment.key).Nodup := (List.nodup_append.mp honce).1
    exact ⟨honce', hgood, hpaths, (Except.ok.inj hc).symm.trans (hcommand honce')⟩
  · rintro ⟨honce, hgood, hpaths, rfl⟩
    refine ⟨_, ⟨.start, rfl, _, (Given.putAll_eq_ok_iff Given.sound_start.once).mpr ⟨?_,
      hgood, rfl⟩, hpaths, rfl⟩, congrArg _ (hcommand honce)⟩
    exact (List.append_nil _).symm ▸ honce

end MigrationAudit
