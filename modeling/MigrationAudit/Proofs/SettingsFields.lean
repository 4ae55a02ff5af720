import MigrationAudit.Settings
import Mathlib.Data.List.Nodup

namespace MigrationAudit.Preferences

def keys : List String := ["output", "filter", "fail_on", "exclude"]

/-- What the preferences have under a key comes from the value. Each key has its own of them. -/
def Fits (p : Preferences) (value : Setting) : String → Prop
  | "output" => value.optionalText? = some p.output
  | "filter" => value.optionalText? = some p.view
  | "fail_on" => value.optionalText? = some p.failOn
  | "exclude" => value.texts? = some p.exclude
  | _ => False

/-- The value under a key. A key that is left out is like one without a value. -/
def valueOf (fields : List (String × Setting)) (key : String) : Setting :=
  (fields.lookup key).getD (.scalar .empty)

/-- Fields that may stand in one file, and the preferences that they come to. -/
structure Reads (fields : List (String × Setting)) (p : Preferences) : Prop where
  known : ∀ field ∈ fields, field.1 ∈ keys
  once : (fields.map Prod.fst).Nodup
  fits : ∀ key ∈ keys, p.Fits (valueOf fields key) key

/-- What may be wrong with the fields of a file. The key that is at fault is one of theirs. -/
inductive Faulty (fields : List (String × Setting)) : ConfigFault → Prop
  | unknownKey (key : String) (mem : key ∈ fields.map Prod.fst) (unknown : key ∉ keys) :
      Faulty fields (.unknownKey key)
  | repeatedKey (key : String) (twice : 1 < (fields.map Prod.fst).count key) :
      Faulty fields (.repeatedKey key)
  | badValue (key : String) (value : Setting) (mem : (key, value) ∈ fields)
      (bad : ∀ p : Preferences, ¬p.Fits value key) : Faulty fields (.badValue key)

variable {fields : List (String × Setting)} {p q : Preferences} {key key' : String}
  {value value' : Setting} {fault : ConfigFault}

theorem mem_keys_iff :
    key ∈ keys ↔ key = "output" ∨ key = "filter" ∨ key = "fail_on" ∨ key = "exclude" := by
  simp [keys]

theorem put_of_not_mem (h : key ∉ keys) : p.put key value = .error (.unknownKey key) := by
  unfold put
  split
  case h_5 => rfl
  all_goals exact absurd (by decide) h

/-- A value that is accepted sets what the preferences have under its key and nothing else. One that
is not is of no use to any preferences. -/
theorem put_cases (h : key ∈ keys) (p : Preferences) (value : Setting) :
    (∃ q, p.put key value = .ok q ∧ q.Fits value key ∧
      ∀ key' ∈ keys, key' ≠ key → ∀ value', q.Fits value' key' ↔ p.Fits value' key') ∨
    p.put key value = .error (.badValue key) ∧ ∀ p : Preferences, ¬p.Fits value key := by
  rcases mem_keys_iff.mp h with rfl | rfl | rfl | rfl
  case inr.inr.inr => cases htexts : value.texts? <;> simp [put, Fits, htexts, keys]
  all_goals cases htext : value.optionalText? <;> simp [put, Fits, htext, keys]

theorem fits_put (h : p.put key value = .ok q) : key ∈ keys ∧ q.Fits value key ∧
    ∀ key' ∈ keys, key' ≠ key → ∀ value', q.Fits value' key' ↔ p.Fits value' key' := by
  by_cases hkey : key ∈ keys
  · rcases put_cases hkey p value with ⟨q', hput, hfits⟩ | ⟨hput, -⟩
    · obtain rfl : q' = q := Except.ok.inj (hput.symm.trans h)
      exact ⟨hkey, hfits⟩
    · rw [hput] at h
      cases h
  · rw [put_of_not_mem hkey] at h
    cases h

theorem fits_empty (h : key ∈ keys) : empty.Fits (.scalar .empty) key := by
  rcases mem_keys_iff.mp h with rfl | rfl | rfl | rfl <;> rfl

theorem eq_of_fits (h : ∀ key ∈ keys, ∃ value, p.Fits value key ∧ q.Fits value key) : p = q := by
  obtain ⟨_, houtput, houtput'⟩ := h "output" (by decide)
  obtain ⟨_, hview, hview'⟩ := h "filter" (by decide)
  obtain ⟨_, hfailOn, hfailOn'⟩ := h "fail_on" (by decide)
  obtain ⟨_, hexclude, hexclude'⟩ := h "exclude" (by decide)
  cases p
  cases q
  exact (mk.injEq ..).mpr ⟨Option.some.inj (houtput.symm.trans houtput'),
    Option.some.inj (hview.symm.trans hview'), Option.some.inj (hfailOn.symm.trans hfailOn'),
    Option.some.inj (hexclude.symm.trans hexclude')⟩

theorem valueOf_cons_self : valueOf ((key, value) :: fields) key = value := by
  rw [valueOf, List.lookup_cons_self, Option.getD_some]

theorem valueOf_cons_of_ne (h : key' ≠ key) :
    valueOf ((key, value) :: fields) key' = valueOf fields key' := by
  rw [valueOf, List.lookup_cons, beq_false_of_ne h]
  rfl

theorem valueOf_of_not_mem (h : key ∉ fields.map Prod.fst) :
    valueOf fields key = .scalar .empty := by
  rw [valueOf, List.lookup_eq_none_iff.mpr]
  · rfl
  · intro field hfield
    exact bne_iff_ne.mpr fun heq => h (List.mem_map.mpr ⟨field, hfield, heq.symm⟩)

theorem reads_nil : Reads [] p ↔ p = empty := by
  have hempty : Reads [] empty := ⟨nofun, List.nodup_nil, fun _ => fits_empty⟩
  constructor
  · intro h
    exact eq_of_fits fun key hkey => ⟨_, h.fits key hkey, hempty.fits key hkey⟩
  · rintro rfl
    exact hempty

theorem Reads.cons (h : Reads fields p) (hnew : key ∉ fields.map Prod.fst)
    (hput : p.put key value = .ok q) : Reads ((key, value) :: fields) q := by
  obtain ⟨hkey, hfits, hothers⟩ := fits_put hput
  refine ⟨List.forall_mem_cons.mpr ⟨hkey, h.known⟩, List.nodup_cons.mpr ⟨hnew, h.once⟩, ?_⟩
  intro key' hkey'
  by_cases hne : key' = key
  · rw [hne, valueOf_cons_self]
    exact hfits
  · rw [valueOf_cons_of_ne hne]
    exact (hothers key' hkey' hne _).mpr (h.fits key' hkey')

/-- Without its first field a file reads as if that had no value. -/
theorem Reads.tail (h : Reads ((key, value) :: fields) q) :
    key ∉ fields.map Prod.fst ∧ ∃ p, Reads fields p ∧ p.put key value = .ok q := by
  obtain ⟨hkey, hknown⟩ := List.forall_mem_cons.mp h.known
  obtain ⟨hnew, honce⟩ := List.nodup_cons.mp h.once
  refine ⟨hnew, ?_⟩
  rcases put_cases hkey q (.scalar .empty) with ⟨p, -, hfits, hothers⟩ | ⟨-, hbad⟩
  · refine ⟨p, ⟨hknown, honce, fun key' hkey' => ?_⟩, ?_⟩
    · by_cases hne : key' = key
      · rw [hne, valueOf_of_not_mem hnew]
        exact hfits
      · rw [hothers key' hkey' hne, ← valueOf_cons_of_ne hne]
        exact h.fits key' hkey'
    · have hvalue := h.fits key hkey
      rw [valueOf_cons_self] at hvalue
      rcases put_cases hkey p value with ⟨q', hput, hfits', hothers'⟩ | ⟨-, hbad⟩
      · rw [hput]
        refine congrArg _ (eq_of_fits fun key' hkey' => ?_)
        by_cases hne : key' = key
        · exact ⟨value, hne ▸ hfits', hne ▸ hvalue⟩
        · refine ⟨_, ?_, h.fits key' hkey'⟩
          rw [hothers' key' hkey' hne, hothers key' hkey' hne]
          exact h.fits key' hkey'
      · exact absurd hvalue (hbad q)
  · exact absurd (fits_empty hkey) (hbad empty)

theorem any_eq_true_iff : (fields.any (·.1 = key)) = true ↔ key ∈ fields.map Prod.fst := by
  simp

/-- Fields are accepted if every key is known, none is given twice and each value is of use. -/
theorem ofFields_eq_ok_iff : ofFields fields = .ok p ↔ Reads fields p := by
  induction fields generalizing p with
  | nil => rw [reads_nil, ofFields, Except.ok.injEq, eq_comm]
  | cons field fields ih =>
    obtain ⟨key, value⟩ := field
    have hcons : ofFields ((key, value) :: fields) = .ok p ↔
        key ∉ fields.map Prod.fst ∧ ∃ q, ofFields fields = .ok q ∧ q.put key value = .ok p := by
      rw [ofFields, ← any_eq_true_iff]
      cases ofFields fields <;> split_ifs with hrepeated <;> simp [hrepeated, bind, Except.bind]
    rw [hcons]
    simp only [ih]
    constructor
    · rintro ⟨hnew, q, hreads, hput⟩
      exact hreads.cons hnew hput
    · exact Reads.tail

theorem Faulty.cons {field : String × Setting} (h : Faulty fields fault) :
    Faulty (field :: fields) fault := by
  cases h with
  | unknownKey key mem unknown => exact .unknownKey key (List.mem_cons_of_mem _ mem) unknown
  | repeatedKey key twice =>
    exact .repeatedKey key (Nat.lt_of_lt_of_le twice ((List.sublist_cons_self _ _).count_le key))
  | badValue key value mem bad => exact .badValue key value (List.mem_cons_of_mem _ mem) bad

/-- Fields are refused for something that is wrong with them. -/
theorem faulty_of_ofFields (h : ofFields fields = .error fault) : Faulty fields fault := by
  induction fields with
  | nil => cases h
  | cons field fields ih =>
    obtain ⟨key, value⟩ := field
    rw [ofFields] at h
    split_ifs at h with hrepeated
    · cases h
      have hmem : key ∈ fields.map Prod.fst := any_eq_true_iff.mp hrepeated
      refine .repeatedKey key ?_
      rw [List.map_cons, List.count_cons_self]
      exact Nat.succ_lt_succ (List.count_pos_iff.mpr hmem)
    · cases hrest : ofFields fields with
      | error fault' =>
        rw [hrest] at h
        cases h
        exact (ih hrest).cons
      | ok p =>
        rw [hrest] at h
        by_cases hkey : key ∈ keys
        · rcases put_cases hkey p value with ⟨q, hput, -⟩ | ⟨hput, hbad⟩
          · cases hput.symm.trans h
          · cases hput.symm.trans h
            exact .badValue key value List.mem_cons_self hbad
        · cases (put_of_not_mem hkey).symm.trans h
          exact .unknownKey key List.mem_cons_self hkey

end MigrationAudit.Preferences
