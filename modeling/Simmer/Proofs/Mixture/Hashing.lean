import Simmer.Proofs.Mixture.Multiset
import Mathlib.Data.Multiset.Defs
import Std.Data.HashSet.Lemmas

/-!
Mixtures in hash sets. A hasher is fed how many components there are and then, for one component
after another in sorted order, how many tokens it has and which. What it is fed is the same for
two mixtures exactly when they are the same multiset. So whatever a hasher makes of it, a set that
looks mixtures up by their hashes holds every multiset once, in whatever order they came.
-/
namespace Simmer

/-- One piece of what a hasher is fed. -/
inductive Fed where
  | count (n : Nat)
  | text (s : String)
deriving DecidableEq, Repr

/-- A hasher takes in one piece after another, and the hash is read off its last state. -/
structure Hasher (σ : Type) where
  start : σ
  take : σ → Fed → σ
  finish : σ → UInt64

def Hasher.hash {σ : Type} (h : Hasher σ) (fed : List Fed) : UInt64 :=
  h.finish (fed.foldl h.take h.start)

namespace Mixture

def fedTokens (tokens : List String) : List Fed :=
  .count tokens.length :: tokens.map .text

/-- What a hasher is fed for a mixture. -/
def fed (m : Mixture) : List Fed :=
  .count m.key.length :: m.key.flatMap fedTokens

/-- The counts tell where one list of texts ends. -/
theorem fedTokens_append_inj {ts us : List String} {fs gs : List Fed}
    (h : fedTokens ts ++ fs = fedTokens us ++ gs) : ts = us ∧ fs = gs := by
  obtain ⟨hcount, hrest⟩ := List.cons.inj h
  have hlength : ts.length = us.length := Fed.count.inj hcount
  obtain ⟨htexts, hbehind⟩ := List.append_inj hrest (by simp [hlength])
  have hinj : Function.Injective Fed.text := fun _ _ => Fed.text.inj
  exact ⟨hinj.list_map htexts, hbehind⟩

theorem flatMap_fedTokens_inj {ks ls : List (List String)} (hlength : ks.length = ls.length)
    (h : ks.flatMap fedTokens = ls.flatMap fedTokens) : ks = ls := by
  induction ks generalizing ls with
  | nil => exact (List.length_eq_zero_iff.mp hlength.symm).symm
  | cons ts ks ih =>
    cases ls with
    | nil => cases hlength
    | cons us ls =>
      obtain ⟨rfl, hrest⟩ := fedTokens_append_inj h
      rw [ih (Nat.succ.inj hlength) hrest]

theorem fed_eq_iff_perm {a b : Mixture} : a.fed = b.fed ↔ a.components.Perm b.components := by
  rw [← key_eq_iff_perm]
  constructor
  · intro h
    obtain ⟨hcount, hrest⟩ := List.cons.inj h
    exact flatMap_fedTokens_inj (Fed.count.inj hcount) hrest
  · intro h
    rw [fed, fed, h]

section members

variable {σ : Type} {h : Hasher σ}

/-- A mixture as a hash set holds it: hashed by `h`, and compared as a multiset. -/
structure Member (h : Hasher σ) where
  mixture : Mixture

instance : BEq (Member h) := ⟨fun a b => a.mixture.same b.mixture⟩

instance : Hashable (Member h) := ⟨fun a => h.hash a.mixture.fed⟩

theorem member_beq_iff {a b : Member h} :
    (a == b) = true ↔ a.mixture.components.Perm b.mixture.components :=
  same_iff_perm

instance : EquivBEq (Member h) where
  rfl := member_beq_iff.mpr (List.Perm.refl _)
  symm hab := member_beq_iff.mpr (member_beq_iff.mp hab).symm
  trans hab hbc := member_beq_iff.mpr ((member_beq_iff.mp hab).trans (member_beq_iff.mp hbc))

instance : LawfulHashable (Member h) where
  hash_eq _ _ hab := congrArg h.hash (fed_eq_iff_perm.mpr (member_beq_iff.mp hab))

/-- The hash set into which the mixtures are put, one after another. -/
def gathered (h : Hasher σ) (ms : List Mixture) : Std.HashSet (Member h) :=
  ms.foldl (fun set m => set.insert ⟨m⟩) ∅

/-- The multisets that the hash set holds, one for each of its members. -/
def kept (h : Hasher σ) (ms : List Mixture) : List (Multiset Component) :=
  (gathered h ms).toList.map fun a => ↑a.mixture.components

theorem mem_foldl_insert {set : Std.HashSet (Member h)} {ms : List Mixture} {a : Member h} :
    a ∈ ms.foldl (fun set m => set.insert ⟨m⟩) set ↔
      a ∈ set ∨ ∃ m ∈ ms, m.components.Perm a.mixture.components := by
  induction ms generalizing set with
  | nil => simp
  | cons m ms ih =>
    rw [List.foldl_cons, ih, Std.HashSet.mem_insert, member_beq_iff, List.exists_mem_cons_iff]
    tauto

theorem mem_gathered_iff {ms : List Mixture} {a : Member h} :
    a ∈ gathered h ms ↔ ∃ m ∈ ms, m.components.Perm a.mixture.components := by
  rw [gathered, mem_foldl_insert]
  simp

theorem exists_mem_toList_iff {ms : List Mixture} {a : Member h} :
    (∃ b ∈ (gathered h ms).toList, (a == b) = true) ↔
      ∃ m ∈ ms, m.components.Perm a.mixture.components := by
  rw [← List.contains_iff_exists_mem_beq, Std.HashSet.contains_toList,
    ← Std.HashSet.mem_iff_contains, mem_gathered_iff]

theorem nodup_kept (ms : List Mixture) : (kept h ms).Nodup := by
  apply List.pairwise_map.mpr
  refine Std.HashSet.distinct_toList.imp fun {a b} hab heq => ?_
  rw [← Bool.not_eq_true, member_beq_iff] at hab
  exact hab (Multiset.coe_eq_coe.mp heq)

theorem mem_kept_iff {ms : List Mixture} {s : Multiset Component} :
    s ∈ kept h ms ↔ ∃ m ∈ ms, ↑m.components = s := by
  rw [kept, List.mem_map]
  constructor
  · rintro ⟨a, ha, rfl⟩
    obtain ⟨m, hm, hperm⟩ := exists_mem_toList_iff.mp ⟨a, ha, BEq.rfl⟩
    exact ⟨m, hm, Multiset.coe_eq_coe.mpr hperm⟩
  · rintro ⟨m, hm, rfl⟩
    obtain ⟨a, ha, hbeq⟩ : ∃ a ∈ (gathered h ms).toList, ((⟨m⟩ : Member h) == a) = true :=
      exists_mem_toList_iff.mpr ⟨m, hm, List.Perm.refl _⟩
    exact ⟨a, ha, Multiset.coe_eq_coe.mpr (member_beq_iff.mp hbeq).symm⟩

/-- The driver remembers the keys of mixtures, which comes to the same. -/
theorem mem_gathered_iff_key {ms : List Mixture} {m : Mixture} :
    (⟨m⟩ : Member h) ∈ gathered h ms ↔ m.key ∈ Std.HashSet.ofList (ms.map key) := by
  rw [mem_gathered_iff, Std.HashSet.mem_ofList, List.contains_iff_mem, List.mem_map]
  simp only [key_eq_iff_perm]

end members

/-- Mixtures are equal when one lists the components of the other in whatever order, and exactly
then a hasher is fed the same for both. So a hash set that mixtures are put into, whatever its
hasher is, holds each multiset among them once, and their order makes no difference to which. -/
theorem equality_is_of_multisets :
    (∀ a b : Mixture, a.same b = true ↔ b.components.Perm a.components) ∧
    (∀ a b : Mixture, a.same b = true ↔ a.fed = b.fed) ∧
    ∀ {σ : Type} (h : Hasher σ) (ms : List Mixture),
      (kept h ms).Nodup ∧ (∀ s, s ∈ kept h ms ↔ ∃ m ∈ ms, ↑m.components = s) ∧
        (∀ m, (⟨m⟩ : Member h) ∈ gathered h ms ↔ m.key ∈ Std.HashSet.ofList (ms.map key)) ∧
        ∀ ms', ms'.Perm ms → (kept h ms').Perm (kept h ms) := by
  refine ⟨fun a b => ?_, fun a b => ?_, fun h ms => ⟨nodup_kept ms, fun s => mem_kept_iff,
    fun m => mem_gathered_iff_key, fun ms' hperm => ?_⟩⟩
  · rw [same_iff_perm, List.perm_comm]
  · rw [same_iff_perm, fed_eq_iff_perm]
  · rw [List.perm_ext_iff_of_nodup (nodup_kept ms') (nodup_kept ms)]
    intro s
    simp only [mem_kept_iff, hperm.mem_iff]

/-- A hasher that takes no notice of texts, so that many mixtures share a hash. -/
def counting : Hasher UInt64 :=
  ⟨0, fun state _ => state + 1, id⟩

def broth : Mixture :=
  ⟨[⟨["hot", "Onion"]⟩, ⟨[]⟩, ⟨["Water"]⟩, ⟨[]⟩]⟩

/-- The broth in another order. -/
def stirredBroth : Mixture :=
  ⟨[⟨[]⟩, ⟨["Water"]⟩, ⟨["hot", "Onion"]⟩, ⟨[]⟩]⟩

def thinBroth : Mixture :=
  ⟨[⟨["Onion"]⟩, ⟨["hot", "Water"]⟩]⟩

/-- A broth is the same when it is stirred, but not the same as a thin one, and which comes
first into a hash set makes no difference to the multisets that it holds. -/
theorem equality_is_of_multisets_broth :
    broth.same stirredBroth = true ∧ broth.same thinBroth = false ∧
      broth.fed = stirredBroth.fed ∧
      [stirredBroth, thinBroth, broth].Perm [broth, stirredBroth, thinBroth] ∧
      (kept counting [stirredBroth, thinBroth, broth]).Perm
        (kept counting [broth, stirredBroth, thinBroth]) := by
  obtain ⟨hsame, hfed, hkept⟩ := equality_is_of_multisets
  have hstirred : broth.same stirredBroth = true := (hsame _ _).mpr (by decide)
  have hperm : [stirredBroth, thinBroth, broth].Perm [broth, stirredBroth, thinBroth] := by decide
  refine ⟨hstirred, ?_, (hfed _ _).mp hstirred, hperm, (hkept counting _).2.2.2 _ hperm⟩
  rw [← Bool.not_eq_true, hsame]
  decide

end Mixture

end Simmer
