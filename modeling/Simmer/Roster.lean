/-!
Values under distinct names, in the order in which the names first came. What is stored
under a name is changed in place; a new name goes to the end. `same` compares two rosters
as finite maps, without their order.
-/
namespace Simmer

structure Roster (α : Type) where
  entries : List (String × α)
  distinct : (entries.map Prod.fst).Nodup
deriving DecidableEq, Repr

namespace Roster

variable {α : Type}

def empty : Roster α := ⟨[], by simp⟩

instance : Inhabited (Roster α) := ⟨empty⟩

def names (r : Roster α) : List String :=
  r.entries.map Prod.fst

def size (r : Roster α) : Nat :=
  r.entries.length

def isEmpty (r : Roster α) : Bool :=
  r.entries.isEmpty

def get? (r : Roster α) (name : String) : Option α :=
  (r.entries.find? fun entry => entry.1 == name).map Prod.snd

def contains (r : Roster α) (name : String) : Bool :=
  (r.get? name).isSome

theorem contains_iff {r : Roster α} {name : String} :
    r.contains name = true ↔ name ∈ r.names := by
  simp [contains, get?, names]

theorem contains_eq_false_iff {r : Roster α} {name : String} :
    r.contains name = false ↔ name ∉ r.names := by
  rw [← contains_iff, Bool.not_eq_true]

/-- Store under `name` what `change` makes of the value there. -/
def update (r : Roster α) (name : String) (change : Option α → α) : Roster α :=
  if h : r.contains name = true then
    { entries := r.entries.map fun entry =>
        if entry.1 = name then (entry.1, change (some entry.2)) else entry
      distinct := by
        have hmap : (r.entries.map fun entry =>
            if entry.1 = name then (entry.1, change (some entry.2)) else entry).map Prod.fst =
            r.entries.map Prod.fst := by
          rw [List.map_map]
          apply List.map_congr_left
          intro entry _
          simp only [Function.comp_apply]
          split <;> rfl
        rw [hmap]
        exact r.distinct }
  else
    { entries := r.entries ++ [(name, change none)]
      distinct := by
        rw [Bool.not_eq_true, contains_eq_false_iff] at h
        rw [List.map_append, List.nodup_append]
        refine ⟨r.distinct, by simp, ?_⟩
        intro a ha b hb
        simp only [List.map_cons, List.map_nil, List.mem_singleton] at hb
        subst hb
        intro heq
        subst heq
        exact h ha }

def insert (r : Roster α) (name : String) (value : α) : Roster α :=
  r.update name fun _ => value

/-- The entries of `r`, then those of `s` whose names `r` lacks. -/
def absorb (r s : Roster α) : Roster α where
  entries := r.entries ++ s.entries.filter fun entry => !r.contains entry.1
  distinct := by
    rw [List.map_append, List.nodup_append]
    refine ⟨r.distinct, ?_, ?_⟩
    · exact List.Sublist.nodup (List.Sublist.map _ List.filter_sublist) s.distinct
    · intro a ha b hb heq
      subst heq
      obtain ⟨entry, hentry, rfl⟩ := List.mem_map.mp hb
      have hlacks := (List.mem_filter.mp hentry).2
      rw [Bool.not_eq_true', contains_eq_false_iff] at hlacks
      exact hlacks ha

/-- The names that `absorb` adds to `r`, in the order of `s`. -/
def newNames (r s : Roster α) : List String :=
  s.names.filter fun name => !r.contains name

/-- The roster without the entries under `names`. -/
def forget (r : Roster α) (names : List String) : Roster α where
  entries := r.entries.filter fun entry => !names.contains entry.1
  distinct := List.Sublist.nodup (List.Sublist.map _ List.filter_sublist) r.distinct

variable [DecidableEq α]

/-- Every name of both stands for one value. -/
def agrees (r s : Roster α) : Bool :=
  s.entries.all fun (name, value) =>
    match r.get? name with
    | none => true
    | some mine => mine = value

/-- The same names with the same values, in whatever order. -/
def same (r s : Roster α) : Bool :=
  r.size == s.size && r.entries.all fun (name, value) => s.get? name == some value

end Roster

end Simmer
