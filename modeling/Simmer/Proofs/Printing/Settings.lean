import Simmer.Settings
import Simmer.Proofs.Printing.Json

/-!
Settings in print. Their text is an object with an object in it, whose members have the names of
the fields, and each field takes its own member. So under every library that does what is relied
on, all settings are read back from their text, at every cap that fits a word and at every level.
-/
namespace Simmer

open Json (Takes Plain Object Follows Library Field quoted)

namespace Level

theorem plain_name (level : Level) : Plain level.name.toList := by
  cases level <;> decide

theorem lookup_name (level : Level) : names.lookup level.name = some level := by
  cases level <;> decide

end Level

namespace Settings

variable {json : Library}

section limits

/-- The one member of the limits, in print. -/
def limitMembers (cap : UInt64) : List (String × List Char) :=
  [("max_iterations", Nat.toDigits 10 cap.toNat)]

theorem object_writeLimits (h : json.Lawful) (cap : UInt64) (depth : Nat) :
    Object (writeLimits json cap depth) (limitMembers cap) := by
  have hplain : Plain "max_iterations".toList := by decide
  have hobject : Object (writeLimits json cap depth)
      [("max_iterations", json.writeWord cap (depth + 1))] :=
    h.writeRecord_object _ depth (List.forall_mem_singleton.mpr hplain)
  rwa [h.writeWord_digits] at hobject

theorem takes_readLimits (h : json.Lawful) (cap : UInt64) (depth : Nat) :
    Takes (readLimits json) (writeLimits json cap depth) cap := by
  have hname : ((limitMembers cap).map Prod.fst).Nodup := List.nodup_cons.mpr (by simp)
  have hcap := (h.readWord_digits cap).map id
  exact h.readRecord_object hname hname (object_writeLimits h cap depth)
    (.cons List.mem_cons_self hcap (.nil cap))

end limits

/-- The members of the settings, in print. -/
def members (json : Library) (s : Settings) : List (String × List Char) :=
  [("reduction", writeLimits json s.cap 1), ("log_level", quoted s.level.name.toList)]

theorem object_write (h : json.Lawful) (s : Settings) :
    ∃ text, s.write json = String.ofList text ∧ Object text (members json s) := by
  have hlimits : Plain "reduction".toList := by decide
  have hlevel : Plain "log_level".toList := by decide
  refine ⟨_, h.writeText_eq _, ?_⟩
  rw [members, ← h.writeName_quoted _ 1 s.level.plain_name]
  exact h.writeRecord_object
    [("reduction", writeLimits json s.cap), ("log_level", json.writeName s.level.name)] 0
    (List.forall_mem_cons.mpr ⟨hlimits, List.forall_mem_singleton.mpr hlevel⟩)

theorem follows_fields (h : json.Lawful) (s : Settings) :
    Follows (fields json) default (members json s) s := by
  have hlimits := (takes_readLimits h s.cap 1).map fun cap => { default with cap }
  have hlevel := (h.readOneOf_quoted s.level.plain_name s.level.lookup_name).map
    fun level => { default with cap := s.cap, level }
  exact .cons List.mem_cons_self hlimits
    (.cons (List.mem_cons_of_mem _ List.mem_cons_self) hlevel (.nil s))

/-- Settings are read back from their text. -/
theorem read_write (h : json.Lawful) (s : Settings) : read json (s.write json) = .ok s := by
  have hnames : ["reduction", "log_level"].Nodup := by decide
  have hfields : ((fields json).map Field.name).Nodup := hnames
  have hmembers : ((members json s).map Prod.fst).Nodup := hnames
  obtain ⟨text, hwrite, hobject⟩ := object_write h s
  have hread := h.readRecord_object hfields hmembers hobject (follows_fields h s)
  apply h.readText_taken
  rwa [hwrite, String.toList_ofList]

end Settings

end Simmer
