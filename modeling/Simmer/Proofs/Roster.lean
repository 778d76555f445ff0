import Simmer.Roster
import Mathlib.Data.List.Induction
import Mathlib.Data.List.Nodup

/-!
Rosters as lists of entries. Entries are coherent when no name stands for two values; a
roster gathers a list of entries when it holds each of them once, in the order in which they
first came. Absorbing a roster that agrees gathers its entries behind those gathered before.
-/
namespace Simmer.Roster

variable {α : Type}

theorem eq_of_entries_eq {r s : Roster α} (h : r.entries = s.entries) : r = s := by
  cases r
  cases s
  cases h
  rfl

theorem nodup_entries (r : Roster α) : r.entries.Nodup :=
  List.Nodup.of_map Prod.fst r.distinct

theorem value_unique (r : Roster α) {name : String} {v w : α}
    (hv : (name, v) ∈ r.entries) (hw : (name, w) ∈ r.entries) : v = w :=
  congrArg Prod.snd (List.inj_on_of_nodup_map r.distinct hv hw rfl)

/-- What is stored under a name is what the entry with this name holds. -/
theorem get?_eq_some_iff {r : Roster α} {name : String} {value : α} :
    r.get? name = some value ↔ (name, value) ∈ r.entries := by
  unfold get?
  rw [Option.map_eq_some_iff]
  constructor
  · intro h
    obtain ⟨entry, hfind, rfl⟩ := h
    have hname : entry.1 = name := by simpa using List.find?_some hfind
    rw [← hname]
    exact List.mem_of_find?_eq_some hfind
  · intro hmem
    cases hfind : r.entries.find? fun entry => entry.1 == name with
    | none =>
      have hmiss := List.find?_eq_none.mp hfind (name, value) hmem
      simp at hmiss
    | some entry =>
      have hname : entry.1 = name := by simpa using List.find?_some hfind
      have hentry : (name, entry.2) ∈ r.entries := by
        rw [← hname]
        exact List.mem_of_find?_eq_some hfind
      exact ⟨entry, rfl, r.value_unique hentry hmem⟩

/-- A roster of one entry. -/
def one (name : String) (value : α) : Roster α :=
  ⟨[(name, value)], by simp⟩

theorem entries_update_of_new {r : Roster α} {name : String} (change : Option α → α)
    (hnew : name ∉ r.names) :
    (r.update name change).entries = r.entries ++ [(name, change none)] := by
  have hlacks : ¬ r.contains name = true := fun h => hnew (contains_iff.mp h)
  simp [update, hlacks]

theorem entries_insert_of_new {r : Roster α} {name : String} (value : α)
    (hnew : name ∉ r.names) : (r.insert name value).entries = r.entries ++ [(name, value)] :=
  entries_update_of_new (fun _ => value) hnew

/-- An update changes what stands under the one name, and nothing else. -/
theorem mem_entries_update {r : Roster α} {name other : String} {change : Option α → α} {v : α} :
    (other, v) ∈ (r.update name change).entries ↔
      if other = name then v = change (r.get? name) else (other, v) ∈ r.entries := by
  by_cases hold : r.contains name = true
  · obtain ⟨old, hold'⟩ := Option.isSome_iff_exists.mp hold
    have hmem := get?_eq_some_iff.mp hold'
    simp only [update, hold, dite_true, List.mem_map, hold']
    constructor
    · intro h
      obtain ⟨⟨n, w⟩, hn, heq⟩ := h
      by_cases hname : n = name
      · obtain rfl : w = old := r.value_unique (hname ▸ hn) hmem
        simp only [hname, if_true, Prod.mk.injEq] at heq
        simp [← heq.1, ← heq.2]
      · simp only [hname, if_false, Prod.mk.injEq] at heq
        obtain ⟨rfl, rfl⟩ := heq
        simpa [hname] using hn
    · intro h
      by_cases hname : other = name
      · simp only [hname, if_true] at h
        exact ⟨(name, old), hmem, by simp [hname, h]⟩
      · simp only [hname, if_false] at h
        exact ⟨(other, v), h, by simp [hname]⟩
  · have hnew : name ∉ r.names := fun h => hold (contains_iff.mpr h)
    have hnone : r.get? name = none := by simpa [contains] using hold
    rw [entries_update_of_new change hnew, List.mem_append, List.mem_singleton, Prod.mk.injEq,
      hnone]
    by_cases hname : other = name
    · have hlacks : (other, v) ∉ r.entries := fun h =>
        hnew (hname ▸ List.mem_map_of_mem (f := Prod.fst) h)
      simp [hname, hname ▸ hlacks]
    · simp [hname]

theorem mem_entries_insert {r : Roster α} {name other : String} {value v : α} :
    (other, v) ∈ (r.insert name value).entries ↔
      if other = name then v = value else (other, v) ∈ r.entries :=
  mem_entries_update

theorem get?_update (r : Roster α) (name other : String) (change : Option α → α) :
    (r.update name change).get? other =
      if other = name then some (change (r.get? name)) else r.get? other := by
  apply Option.ext
  intro v
  rw [get?_eq_some_iff, mem_entries_update]
  split
  · rw [Option.some.injEq, eq_comm]
  · exact get?_eq_some_iff.symm

/-- No name stands for two values. -/
def Coherent (entries : List (String × α)) : Prop :=
  ∀ name v w, (name, v) ∈ entries → (name, w) ∈ entries → v = w

theorem coherent_entries (r : Roster α) : Coherent r.entries :=
  fun _ _ _ hv hw => r.value_unique hv hw

theorem coherent_append_iff {es fs : List (String × α)} :
    Coherent (es ++ fs) ↔ Coherent es ∧ Coherent fs ∧
      ∀ name v w, (name, v) ∈ es → (name, w) ∈ fs → v = w := by
  constructor
  · intro h
    refine ⟨fun name v w hv hw => ?_, fun name v w hv hw => ?_, fun name v w hv hw => ?_⟩ <;>
      exact h name v w (by simp [hv]) (by simp [hw])
  · intro h name v w hv hw
    obtain ⟨hes, hfs, hboth⟩ := h
    rcases List.mem_append.mp hv with hv | hv <;> rcases List.mem_append.mp hw with hw | hw
    · exact hes name v w hv hw
    · exact hboth name v w hv hw
    · exact (hboth name w v hw hv).symm
    · exact hfs name v w hv hw

theorem Coherent.mono {es fs : List (String × α)} (h : Coherent fs) (hsub : es ⊆ fs) :
    Coherent es :=
  fun name v w hv hw => h name v w (hsub hv) (hsub hw)

variable [DecidableEq α]

theorem agrees_iff {r s : Roster α} :
    r.agrees s = true ↔
      ∀ name v w, (name, v) ∈ r.entries → (name, w) ∈ s.entries → v = w := by
  simp only [agrees, List.all_eq_true]
  constructor
  · intro h name v w hv hw
    have hentry := h (name, w) hw
    rw [get?_eq_some_iff.mpr hv] at hentry
    exact of_decide_eq_true hentry
  · intro h entry hw
    obtain ⟨name, w⟩ := entry
    cases hget : r.get? name with
    | none => rfl
    | some v => exact decide_eq_true (h name v w (get?_eq_some_iff.mp hget) hw)

theorem eraseDups_of_nodup {β : Type} [BEq β] [LawfulBEq β] {xs : List β} (h : xs.Nodup) :
    xs.eraseDups = xs := by
  induction xs with
  | nil => rfl
  | cons x xs ih =>
    obtain ⟨hx, hxs⟩ := List.nodup_cons.mp h
    have hkeep : (xs.filter fun y => !y == x) = xs := by
      rw [List.filter_eq_self]
      intro y hy
      simp only [Bool.not_eq_true', beq_eq_false_iff_ne]
      intro heq
      subst heq
      exact hx hy
    rw [List.eraseDups_cons, hkeep, ih hxs]

/-- The roster holds the entries, each once, in the order in which they first came. -/
def Gathers (r : Roster α) (entries : List (String × α)) : Prop :=
  r.entries = entries.eraseDups

theorem gathers_empty : (empty : Roster α).Gathers [] := rfl

namespace Gathers

variable {r s : Roster α} {es : List (String × α)}

theorem mem_iff (h : r.Gathers es) {entry : String × α} : entry ∈ r.entries ↔ entry ∈ es := by
  rw [h]
  exact List.mem_eraseDups

theorem coherent (h : r.Gathers es) : Coherent es :=
  r.coherent_entries.mono fun _ hentry => h.mem_iff.mpr hentry

theorem unique (hr : r.Gathers es) (hs : s.Gathers es) : r = s :=
  eq_of_entries_eq (hr.trans hs.symm)

/-- A roster agrees with another when the entries of both together are coherent. -/
theorem agrees_iff_coherent (h : r.Gathers es) (s : Roster α) :
    r.agrees s = true ↔ Coherent (es ++ s.entries) := by
  rw [agrees_iff, coherent_append_iff]
  simp only [h.mem_iff]
  exact ⟨fun hboth => ⟨h.coherent, s.coherent_entries, hboth⟩, fun hboth => hboth.2.2⟩

theorem absorb (h : r.Gathers es) (hes : Coherent (es ++ s.entries)) :
    (r.absorb s).Gathers (es ++ s.entries) := by
  have hfilter : (s.entries.filter fun entry => !r.contains entry.1) = s.entries.removeAll es := by
    apply List.filter_congr
    intro entry hw
    obtain ⟨name, w⟩ := entry
    congr 1
    rw [Bool.eq_iff_iff, contains_iff, names, List.mem_map, List.elem_eq_mem, decide_eq_true_iff]
    constructor
    · intro h
      obtain ⟨⟨other, v⟩, hv, rfl⟩ := h
      have hv' : (other, v) ∈ es := h.mem_iff.mp hv
      have hvw : v = w :=
        hes other v w (List.mem_append_left _ hv') (List.mem_append_right _ hw)
      rwa [← hvw]
    · intro hmem
      exact ⟨(name, w), h.mem_iff.mpr hmem, rfl⟩
  have hnodup : (s.entries.removeAll es).Nodup := s.nodup_entries.filter _
  unfold Gathers
  rw [List.eraseDups_append, eraseDups_of_nodup hnodup, ← h, ← hfilter]
  rfl

end Gathers

/-- Coherent entries are gathered by some roster. -/
theorem exists_gathers {es : List (String × α)} (h : Coherent es) :
    ∃ r : Roster α, r.Gathers es := by
  induction es using List.reverseRecOn with
  | nil => exact ⟨empty, gathers_empty⟩
  | append_singleton es entry ih =>
    obtain ⟨r, hr⟩ := ih (h.mono (List.subset_append_left es [entry]))
    exact ⟨r.absorb (one entry.1 entry.2), hr.absorb h⟩

end Simmer.Roster
