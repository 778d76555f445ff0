import Simmer.Proofs.Bindings

/-!
Absorbing and forgetting. A roster is absorbed entry by entry: an entry with a new name goes to
the end, and its name is noted. Forgetting the names noted, whether at once or one after the
other, takes these entries away again and no other. Rosters that agree are merged without loss,
so what agrees with the merged one is what agrees with both.
-/
namespace Simmer

namespace Roster

variable {α : Type} {r s t : Roster α} {es : List (String × α)}

section entries

/-- Take one more entry, unless its name is taken, and note the name. -/
def absorbEntry (state : Roster α × List String) (entry : String × α) : Roster α × List String :=
  if state.1.contains entry.1 then state
  else (state.1.insert entry.1 entry.2, state.2 ++ [entry.1])

/-- Among names that differ from the inserted one, an insertion leaves the new ones new. -/
theorem filter_lacking_insert {name : String} (value : α) (hnew : r.contains name = false)
    (hother : name ∉ es.map Prod.fst) :
    (es.filter fun entry => !(r.insert name value).contains entry.1) =
      es.filter fun entry => !r.contains entry.1 := by
  apply List.filter_congr
  intro entry hentry
  have hne : entry.1 ≠ name := by
    rintro rfl
    exact hother (List.mem_map_of_mem hentry)
  congr 1
  rw [Bool.eq_iff_iff, contains_iff, contains_iff, names,
    entries_insert_of_new value (contains_eq_false_iff.mp hnew)]
  simp [names, hne]

/-- The entries with new names are taken in their order, and so are the names noted. -/
theorem foldl_absorbEntry (r : Roster α) (noted : List String)
    (hdistinct : (es.map Prod.fst).Nodup) :
    (es.foldl absorbEntry (r, noted)).1.entries =
        r.entries ++ es.filter (fun entry => !r.contains entry.1) ∧
      (es.foldl absorbEntry (r, noted)).2 =
        noted ++ (es.filter fun entry => !r.contains entry.1).map Prod.fst := by
  induction es generalizing r noted with
  | nil => simp
  | cons entry es ih =>
    obtain ⟨name, value⟩ := entry
    obtain ⟨hother, hdistinct⟩ := List.nodup_cons.mp hdistinct
    rw [List.foldl_cons, absorbEntry]
    cases hname : r.contains name with
    | true => simpa [hname] using ih r noted hdistinct
    | false =>
      have hinsert := entries_insert_of_new value (contains_eq_false_iff.mp hname)
      obtain ⟨hentries, hnoted⟩ := ih (r.insert name value) (noted ++ [name]) hdistinct
      rw [filter_lacking_insert value hname hother] at hentries hnoted
      simp [hname, hentries, hnoted, hinsert]

theorem newNames_eq (r s : Roster α) :
    r.newNames s = (s.entries.filter fun entry => !r.contains entry.1).map Prod.fst := by
  rw [newNames, names, List.filter_map]
  rfl

/-- Absorbing is taking the entries one after the other. -/
theorem foldl_absorbEntry_entries (r s : Roster α) :
    s.entries.foldl absorbEntry (r, []) = (r.absorb s, r.newNames s) := by
  obtain ⟨hentries, hnoted⟩ := foldl_absorbEntry r [] s.distinct
  rw [newNames_eq]
  exact Prod.ext (eq_of_entries_eq hentries) hnoted

/-- Forgetting is taking the names away one after the other. -/
theorem foldl_forget (r : Roster α) (names : List String) :
    names.foldl (fun r name => r.forget [name]) r = r.forget names := by
  induction names generalizing r with
  | nil =>
    apply eq_of_entries_eq
    simp [forget]
  | cons name names ih =>
    rw [List.foldl_cons, ih]
    apply eq_of_entries_eq
    simp only [forget, List.filter_filter]
    apply List.filter_congr
    intro entry _
    simp [Bool.and_comm]

/-- The names that were added stand in no entry from before, and in every one that came. -/
theorem forget_absorb (r s : Roster α) : (r.absorb s).forget (r.newNames s) = r := by
  apply eq_of_entries_eq
  have hkept : (r.entries.filter fun entry => !(r.newNames s).contains entry.1) = r.entries := by
    rw [List.filter_eq_self]
    intro entry hentry
    have hmine : r.contains entry.1 = true := contains_iff.mpr (List.mem_map_of_mem hentry)
    simp [newNames, hmine]
  have hgone : ((s.entries.filter fun entry => !r.contains entry.1).filter
      fun entry => !(r.newNames s).contains entry.1) = [] := by
    rw [List.filter_eq_nil_iff]
    intro entry hentry
    have hadded : entry.1 ∈ r.newNames s := by
      rw [newNames_eq]
      exact List.mem_map_of_mem hentry
    simp [hadded]
  simp only [forget, absorb, List.filter_append]
  rw [hkept, hgone, List.append_nil]

end entries

section agreement

variable [DecidableEq α]

theorem agrees_comm (r s : Roster α) : r.agrees s = s.agrees r := by
  rw [Bool.eq_iff_iff, agrees_iff, agrees_iff]
  constructor <;> exact fun h name v w hv hw => (h name w v hw hv).symm

theorem gathers_entries (r : Roster α) : r.Gathers r.entries :=
  (eraseDups_of_nodup r.nodup_entries).symm

/-- Where two rosters agree, absorbing loses no entry of either. -/
theorem mem_absorb (h : r.agrees s = true) {entry : String × α} :
    entry ∈ (r.absorb s).entries ↔ entry ∈ r.entries ∨ entry ∈ s.entries := by
  have hcoherent := (r.gathers_entries.agrees_iff_coherent s).mp h
  rw [(r.gathers_entries.absorb hcoherent).mem_iff, List.mem_append]

theorem get?_absorb (h : r.agrees s = true) {name : String} {value : α} :
    (r.absorb s).get? name = some value ↔ r.get? name = some value ∨ s.get? name = some value := by
  rw [get?_eq_some_iff, get?_eq_some_iff, get?_eq_some_iff, mem_absorb h]

theorem agrees_absorb (h : r.agrees s = true) :
    (r.absorb s).agrees t = true ↔ r.agrees t = true ∧ s.agrees t = true := by
  simp only [agrees_iff, mem_absorb h, or_imp, forall_and]

end agreement

end Roster

namespace Bindings

/-- Agreement is mutual. Absorbing keeps the bindings that were there, in their places, and puts
those with new names behind them, whose names it returns; forgetting these names gives back the
bindings from before. What agrees is merged with every value kept, and agreement with the merged
bindings is agreement with both. -/
theorem absorbing_is_exact_and_undone (a b : Bindings) :
    a.agrees b = b.agrees a ∧
      b.entries.foldl Roster.absorbEntry (a, []) = (a.absorb b, a.newNames b) ∧
      (a.absorb b).entries = a.entries ++ b.entries.filter (fun entry => entry.1 ∉ a.names) ∧
      a.newNames b = (b.entries.filter fun entry => entry.1 ∉ a.names).map Prod.fst ∧
      (a.absorb b).forget (a.newNames b) = a ∧
      (a.newNames b).foldl (fun r name => r.forget [name]) (a.absorb b) = a ∧
      (a.agrees b = true →
        (∀ name value, (a.absorb b).get? name = some value ↔
          a.get? name = some value ∨ b.get? name = some value) ∧
        ∀ c : Bindings, (a.absorb b).agrees c = true ↔ a.agrees c = true ∧ b.agrees c = true) := by
  have hlacks : (fun entry : String × Binding => decide (entry.1 ∉ a.names)) =
      fun entry => !a.contains entry.1 := by
    funext entry
    rw [Bool.eq_iff_iff, decide_eq_true_iff, Bool.not_eq_true', Roster.contains_eq_false_iff]
  rw [hlacks, Roster.foldl_forget]
  exact ⟨a.agrees_comm b, a.foldl_absorbEntry_entries b, rfl, a.newNames_eq b, a.forget_absorb b,
    a.forget_absorb b, fun h => ⟨fun _ _ => Roster.get?_absorb h, fun _ => Roster.agrees_absorb h⟩⟩

/-- A modifier and the leftovers of a soup, and the same modifier with an ingredient. -/
def spiced : Bindings :=
  ⟨[("m1", .single "hot"), ("o1", .collected ["salty"])], by decide⟩

def stirred : Bindings :=
  ⟨[("i1", .single "Water"), ("m1", .single "hot")], by decide⟩

theorem absorbing_is_exact_and_undone_stirred :
    spiced.agrees stirred = true ∧ spiced.newNames stirred = ["i1"] ∧
      (spiced.absorb stirred).forget ["i1"] = spiced ∧
      (spiced.absorb stirred).get? "m1" = some (.single "hot") ∧
      (spiced.absorb stirred).agrees stirred = true := by
  have hagrees : spiced.agrees stirred = true := by decide
  have hself : stirred.agrees stirred = true := by decide
  have hnew : spiced.newNames stirred = ["i1"] := by decide
  obtain ⟨-, -, -, -, hback, -, hmerged⟩ := absorbing_is_exact_and_undone spiced stirred
  obtain ⟨hvalues, hthird⟩ := hmerged hagrees
  rw [hnew] at hback
  exact ⟨hagrees, hnew, hback, (hvalues _ _).mpr (.inl (by decide)),
    (hthird stirred).mpr ⟨hagrees, hself⟩⟩

/-- Without agreement the value that was there first stands. -/
example : ((Roster.one "m1" (.single "hot") : Bindings).absorb
    (.one "m1" (.single "cold"))).get? "m1" = some (.single "hot") := by
  decide

end Bindings

end Simmer
