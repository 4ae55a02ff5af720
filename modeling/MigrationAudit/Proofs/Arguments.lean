import MigrationAudit.CommandLine
import Mathlib.Data.List.Nodup

namespace MigrationAudit

namespace CommandLine.Given

theorem bind_eq_ok_iff {α β : Type} {read : Except ArgumentError α}
    {go : α → Except ArgumentError β} {b : β} :
    read >>= go = .ok b ↔ ∃ a, read = .ok a ∧ go a = .ok b := by
  cases read with
  | error e => simp [bind, Except.bind]
  | ok a => simp [bind, Except.bind]

variable {g g' : Given} {verb : Option Verb} {key : Key} {name value arg : String}
  {args : List String}

/-- Of the arguments read so far no option is given twice, no path is empty, and neither is the
root. -/
structure Sound (g : Given) : Prop where
  once : (g.values.map Prod.fst).Nodup
  root : (Key.root, "") ∉ g.values
  paths : "" ∉ g.paths

theorem sound_start : start.Sound := ⟨List.nodup_nil, nofun, nofun⟩

theorem isSome_lookup_iff : (g.values.lookup key).isSome ↔ key ∈ g.values.map Prod.fst := by
  rw [Option.isSome_iff_ne_none, ne_eq, List.lookup_eq_none_iff, List.mem_map]
  constructor
  · intro hnot
    by_contra hnone
    exact hnot fun p hp => bne_iff_ne.mpr fun heq => hnone ⟨p, hp, heq.symm⟩
  · rintro ⟨p, hp, rfl⟩ hall
    exact bne_iff_ne.mp (hall p hp) rfl

theorem put_eq_ok_iff : g.put key value = .ok g' ↔ key ∉ g.values.map Prod.fst ∧
    ¬(key = .root ∧ value = "") ∧ g' = { g with values := (key, value) :: g.values } := by
  rw [← isSome_lookup_iff, put]
  split_ifs with hgiven hbad
  · simp [hgiven]
  · simp [hbad]
  · simp [hgiven, hbad, eq_comm]

theorem Sound.put (h : g.Sound) (hput : g.put key value = .ok g') : g'.Sound := by
  obtain ⟨hnew, hgood, rfl⟩ := put_eq_ok_iff.mp hput
  refine ⟨List.nodup_cons.mpr ⟨hnew, h.once⟩, ?_, h.paths⟩
  rw [List.mem_cons, not_or]
  refine ⟨fun heq => hgood ?_, h.root⟩
  cases heq
  exact ⟨rfl, rfl⟩

theorem Sound.settle (h : g.Sound) (hsettle : g.settle = .ok g') : g'.Sound := by
  have hrest : Sound { g with pending := .nothing } := ⟨h.once, h.root, h.paths⟩
  unfold Given.settle at hsettle
  split at hsettle
  · cases hsettle
    exact hrest
  · cases hsettle
  · exact hrest.put hsettle
  · split_ifs at hsettle with hempty
    cases hsettle
    refine ⟨h.once, h.root, ?_⟩
    rw [List.contains_iff_mem] at hempty
    exact fun hmem => (List.mem_append.mp hmem).elim h.paths hempty

theorem Sound.switch (h : g.Sound) {letter : Char} (hswitch : g.switch verb letter = .ok g') :
    g'.Sound := by
  unfold Given.switch at hswitch
  split at hswitch
  · obtain ⟨g, hsettle, hverbose⟩ := bind_eq_ok_iff.mp hswitch
    have hsettled := h.settle hsettle
    split_ifs at hverbose
    cases hverbose
    exact ⟨hsettled.once, hsettled.root, hsettled.paths⟩
  · obtain ⟨_, -, herror⟩ := bind_eq_ok_iff.mp hswitch
    cases herror
  · obtain ⟨_, -, herror⟩ := bind_eq_ok_iff.mp hswitch
    cases herror
  · cases hswitch

theorem Sound.foldlM {α : Type} {step : Given → α → Except ArgumentError Given} {inputs : List α}
    (hstep : ∀ g a g', g.Sound → step g a = .ok g' → g'.Sound) (h : g.Sound)
    (hread : inputs.foldlM step g = .ok g') : g'.Sound := by
  induction inputs generalizing g with
  | nil =>
    cases hread
    exact h
  | cons a inputs ih =>
    rw [List.foldlM_cons] at hread
    obtain ⟨next, hnext, hrest⟩ := bind_eq_ok_iff.mp hread
    exact ih (hstep g a next h hnext) hrest

theorem Sound.long (h : g.Sound) {value : Option String} (hlong : g.long verb name value = .ok g') :
    g'.Sound := by
  unfold Given.long at hlong
  split at hlong
  · exact h.switch hlong
  · cases hlong
  · split at hlong
    · cases hlong
    · obtain ⟨settled, hsettle, hvalue⟩ := bind_eq_ok_iff.mp hlong
      have hsettled := h.settle hsettle
      split at hvalue
      · exact hsettled.put hvalue
      · cases hvalue
        exact ⟨hsettled.once, hsettled.root, hsettled.paths⟩

theorem Sound.positional (h : g.Sound) (hread : g.positional verb arg = .ok g') : g'.Sound := by
  unfold Given.positional at hread
  split at hread
  · cases hread
  · split at hread
    · cases hread
      exact ⟨h.once, h.root, h.paths⟩
    · obtain ⟨settled, hsettle, hread⟩ := bind_eq_ok_iff.mp hread
      have hsettled := h.settle hsettle
      cases hread
      exact ⟨hsettled.once, hsettled.root, hsettled.paths⟩
  · cases hread

/-- Whatever the next argument is. -/
theorem Sound.argument (h : g.Sound) (hread : g.argument verb arg = .ok g') : g'.Sound := by
  unfold Given.argument at hread
  split at hread
  · split at hread
    · exact h.long hread
    · exact h.long hread
  · exact h.foldlM (fun _ _ _ hsound => hsound.switch) hread
  · split at hread
    · cases hread
      exact ⟨h.once, h.root, h.paths⟩
    · exact h.positional hread

theorem Sound.readAll {verb : Verb} (h : g.Sound) (hread : g.readAll verb args = .ok g') :
    g'.Sound := by
  induction args generalizing g with
  | nil => exact h.settle hread
  | cons arg args ih =>
    unfold Given.readAll at hread
    split at hread
    · next heq => cases heq
    · obtain ⟨last, hlast, hsettle⟩ := bind_eq_ok_iff.mp hread
      exact (h.foldlM (fun _ _ _ hsound => hsound.positional) hlast).settle hsettle
    · next heq =>
      cases heq
      obtain ⟨_, hargument, hrest⟩ := bind_eq_ok_iff.mp hread
      exact ih (h.argument hargument) hrest

end CommandLine.Given

open CommandLine Given

theorem CommandLine.readFrom_eq_ok {g : Given} {args : List String} {c : Command}
    (h : readFrom g args = .ok c) :
    ∃ verb given verbose, given.Sound ∧ c = Given.command verb verbose given := by
  induction args generalizing g with
  | nil =>
    obtain ⟨_, -, herror⟩ := bind_eq_ok_iff.mp h
    cases herror
  | cons arg args ih =>
    unfold readFrom at h
    split at h
    · next heq => cases heq
    · cases h
    · split at h <;> cases h
    · next heq =>
      cases heq
      split at h
      · obtain ⟨given, hread, hcommand⟩ := bind_eq_ok_iff.mp h
        cases hcommand
        exact ⟨_, given, _, sound_start.readAll hread, rfl⟩
      · obtain ⟨_, -, hrest⟩ := bind_eq_ok_iff.mp h
        exact ih hrest

/-- Whatever the arguments are, a scan is asked for with paths and a root that are not empty. -/
theorem Command.nonempty_of_parse {args : List String} {verbose : Bool} {paths : List Path}
    {o : Overrides} (h : parse args = .ok ⟨verbose, .scan paths o⟩) :
    (∀ p ∈ paths, p.text ≠ "") ∧ ∀ root, o.root = some root → root.text ≠ "" := by
  obtain ⟨verb, given, verbose', hsound, hcommand⟩ := readFrom_eq_ok h
  cases verb with
  | version => cases hcommand
  | rules => cases hcommand
  | scan =>
    cases hcommand
    constructor
    · intro p hp hempty
      obtain ⟨text, htext, rfl⟩ := List.mem_map.mp hp
      obtain rfl : text = "" := hempty
      exact hsound.paths htext
    · intro root hroot hempty
      obtain ⟨text, hlookup, rfl⟩ := Option.map_eq_some_iff.mp hroot
      obtain rfl : text = "" := hempty
      obtain ⟨front, back, hvalues, -⟩ := List.lookup_eq_some_iff.mp hlookup
      exact hsound.root (hvalues ▸ List.mem_append_right front List.mem_cons_self)

end MigrationAudit
