import MigrationAudit.Proofs.SettingsFields
import MigrationAudit.Proofs.TomlDocument
import MigrationAudit.Proofs.YamlDocument

namespace MigrationAudit

open Written (Value quoted lines settings)

namespace Preferences

def fields (p : Preferences) : List (String × Value) :=
  p.output.toList.map (("output", .text ·)) ++ (p.view.toList.map (("filter", .text ·)) ++
    (p.failOn.toList.map (("fail_on", .text ·)) ++ [("exclude", .list p.exclude)]))

theorem reads_fields (p : Preferences) : Reads (settings p.fields) p := by
  obtain ⟨output, view, failOn, exclude⟩ := p
  refine ⟨?_, ?_, fun key hkey => ?_⟩
  · cases output <;> cases view <;> cases failOn <;> simp [fields, settings, keys]
  · cases output <;> cases view <;> cases failOn <;> simp [fields, settings]
  · rcases mem_keys_iff.mp hkey with rfl | rfl | rfl | rfl <;>
      cases output <;> cases view <;> cases failOn <;> rfl

theorem length_quoted_of_mem_fields {p : Preferences} {field : String × Value}
    (h : field ∈ p.fields) : (quoted field.1).length ≤ 1024 := by
  have hshort : ∀ key ∈ keys, (quoted key).length ≤ 1024 := by decide +kernel
  exact hshort _ ((reads_fields p).known (field.1, field.2.setting)
    (List.mem_map.mpr ⟨field, h, rfl⟩))

end Preferences

namespace Settings

open Preferences (Reads Faulty)

variable {name : String} {parse : String → Except ConfigFault Preferences}

theorem exists_separator_parse (h : (name, parse) ∈ configNames) :
    ∃ separator, ∀ fields, (∀ field ∈ fields, (quoted field.1).length ≤ 1024) →
      parse (.ofList (lines separator fields)) = Preferences.ofFields (settings fields) := by
  simp only [configNames, List.mem_cons, Prod.mk.injEq, List.not_mem_nil, or_false] at h
  rcases h with ⟨-, rfl⟩ | ⟨-, rfl⟩ | ⟨-, rfl⟩
  · exact ⟨_, fun fields _ => Toml.parse_lines fields⟩
  · exact ⟨_, fun fields hshort => Yaml.parse_lines hshort⟩
  · exact ⟨_, fun fields hshort => Yaml.parse_lines hshort⟩

/-- Any fields can be written in each format, a line for each. The file is accepted if every key is
known, none is given twice and each value is of use, and then each key has set its own preference.
If it is refused, the message names a key that is at fault. -/
theorem exists_separator (h : (name, parse) ∈ configNames) :
    ∃ separator, ∀ fields, (∀ field ∈ fields, (quoted field.1).length ≤ 1024) →
      (∀ p, parse (.ofList (lines separator fields)) = .ok p ↔ Reads (settings fields) p) ∧
        ∀ fault, parse (.ofList (lines separator fields)) = .error fault →
          Faulty (settings fields) fault := by
  obtain ⟨separator, hparse⟩ := exists_separator_parse h
  refine ⟨separator, fun fields hshort => ?_⟩
  rw [hparse fields hshort]
  exact ⟨fun p => Preferences.ofFields_eq_ok_iff, fun fault => Preferences.faulty_of_ofFields⟩

/-- There is a file of each format for all that can be set. -/
theorem exists_document (h : (name, parse) ∈ configNames) (p : Preferences) :
    ∃ document, parse document = .ok p := by
  obtain ⟨separator, hparse⟩ := exists_separator h
  obtain ⟨haccepted, -⟩ := hparse p.fields fun _ => Preferences.length_quoted_of_mem_fields
  exact ⟨_, (haccepted p).mpr p.reads_fields⟩

end Settings

end MigrationAudit
