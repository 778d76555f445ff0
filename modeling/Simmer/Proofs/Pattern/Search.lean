import Simmer.Pattern.Match
import Simmer.Proofs.Roster
import Simmer.Proofs.Selection.Least

/-!
The search for a placement takes back what it does. Whatever a slot notes on the trail and takes
from the pool is there again when it is done, so each attempt begins with the same search, and
the first placement that is found is that of the search without a trail.
-/
namespace Simmer

/-- What the variables stand for when the slot takes the target, if it may. -/
def Slot.accept (oracle : Oracle) (bound : Bindings) (slot : Slot) (target : Target) :
    Option Bindings :=
  if slot.fits oracle target then
    if slot.token.isVariable then bound.bind? slot.token.name target.name else some bound
  else none

/-- The targets onto which the body is placed, and what its variables stand for then. -/
def Clause.place? (oracle : Oracle) (c : Clause) (targets : List Target) :
    Option (List Target × Bindings) :=
  Selection.find? c.strictness (Slot.accept oracle) true (c.slots oracle) targets .empty

namespace Search

variable {oracle : Oracle} {s noted : Search} {slot : Slot} {target : Target}
  {strictness : Strictness} {chosen : List Target} {grown : Bool} {i : Nat}

/-- No variable is noted twice, and no target stands in the pool twice. -/
structure Sound (s : Search) : Prop where
  trail_distinct : (s.trail.map Prod.fst).Nodup
  remaining_distinct : s.remaining.Nodup

section trail

theorem bound_concat (s : Search) (name constant : String) :
    ({ s with trail := s.trail ++ [(name, constant)] } : Search).bound =
      s.bound.insert name (.single constant) :=
  List.foldl_concat ..

theorem lookup?_concat (s : Search) (name constant other : String) :
    ({ s with trail := s.trail ++ [(name, constant)] } : Search).lookup? other =
      (s.lookup? other).or (if name = other then some constant else none) := by
  rw [lookup?, List.find?_append, lookup?]
  by_cases hname : name = other
  · cases s.trail.find? fun entry => entry.1 == other <;> simp [hname]
  · simp [hname]

theorem lookup?_eq_none_iff {name : String} :
    s.lookup? name = none ↔ name ∉ s.trail.map Prod.fst := by
  rw [lookup?, Option.map_eq_none_iff, List.find?_eq_none, List.mem_map, not_exists]
  simp only [beq_iff_eq, not_and]

/-- What is bound is what the trail says. -/
theorem Sound.get?_bound (h : s.Sound) (name : String) :
    s.bound.get? name = (s.lookup? name).map .single := by
  obtain ⟨trail, passed, remaining⟩ := s
  have hdistinct := h.trail_distinct
  clear h
  induction trail using List.reverseRecOn with
  | nil => rfl
  | append_singleton trail entry ih =>
    obtain ⟨last, constant⟩ := entry
    rw [List.map_append, List.nodup_append] at hdistinct
    obtain ⟨hold, -, hnew⟩ := hdistinct
    have hlast : (⟨trail, passed, remaining⟩ : Search).lookup? last = none := by
      rw [lookup?_eq_none_iff]
      intro hmem
      exact hnew last hmem last (by simp) rfl
    have hbound := bound_concat ⟨trail, passed, remaining⟩ last constant
    have hlookup := lookup?_concat ⟨trail, passed, remaining⟩ last constant name
    rw [hbound, hlookup, Roster.insert, Roster.get?_update, ih hold]
    by_cases hname : name = last
    · simp [hname, hlast]
    · simp [hname, Ne.symm hname]

/-- The search with what a token stands for, from which that can be taken back. -/
structure Notes (s noted : Search) (grown : Bool) : Prop where
  sound : noted.Sound
  passed_eq : noted.passed = s.passed
  remaining_eq : noted.remaining = s.remaining
  undone : (if grown then noted.unbind else noted) = s

/-- The trail takes up what the bindings take up, and can be cut back. -/
theorem Sound.bind?_cases (h : s.Sound) (hfits : slot.fits oracle target = true) :
    (s.bind? slot.token target.name = none ∧ slot.accept oracle s.bound target = none) ∨
      ∃ grown noted, s.bind? slot.token target.name = some (grown, noted) ∧
        s.Notes noted grown ∧ slot.accept oracle s.bound target = some noted.bound := by
  rw [Slot.accept, if_pos hfits, bind?]
  by_cases hvariable : slot.token.isVariable = true
  · rw [if_pos hvariable, if_pos hvariable, Bindings.bind?, h.get?_bound]
    cases hlookup : s.lookup? slot.token.name with
    | none =>
      refine Or.inr ⟨true, _, rfl, ⟨⟨?_, h.remaining_distinct⟩, rfl, rfl, ?_⟩, ?_⟩
      · rw [List.map_append, List.nodup_append]
        refine ⟨h.trail_distinct, by simp, fun a ha b hb hab => ?_⟩
        obtain rfl : b = slot.token.name := by simpa using hb
        exact lookup?_eq_none_iff.mp hlookup (hab ▸ ha)
      · simp [unbind]
      · rw [bound_concat]
        rfl
    | some known =>
      by_cases hknown : known = target.name
      · exact Or.inr ⟨false, s, by simp [hknown], ⟨h, rfl, rfl, rfl⟩, by simp [hknown]⟩
      · exact Or.inl ⟨by simp [hknown], by simp [hknown]⟩
  · rw [if_neg hvariable, if_neg hvariable]
    exact Or.inr ⟨false, s, rfl, ⟨h, rfl, rfl, rfl⟩, rfl⟩

end trail

section pool

theorem remaining_take (s : Search) (strictness : Strictness) (i : Nat) :
    (s.take strictness i).remaining = strictness.after i s.remaining := by
  cases strictness <;> rfl

theorem bound_take (s : Search) (strictness : Strictness) (i : Nat) :
    (s.take strictness i).bound = s.bound := by
  cases strictness <;> rfl

theorem Sound.take (h : s.Sound) (strictness : Strictness) (i : Nat) :
    (s.take strictness i).Sound where
  trail_distinct := by
    cases strictness <;> exact h.trail_distinct
  remaining_distinct := by
    rw [remaining_take]
    exact h.remaining_distinct.sublist (strictness.after_sublist i s.remaining)

theorem putBack_take (h : s.remaining[i]? = some target) :
    s.putBack strictness i target (s.take strictness i) = s := by
  obtain ⟨hi, rfl⟩ := List.getElem?_eq_some_iff.mp h
  cases strictness with
  | loose => simp [putBack, Search.take, List.insertIdx_eraseIdx_getElem hi]
  | ordered => simp [putBack, Search.take]
  | contiguous => simp [putBack, Search.take]

/-- What is left over when the chosen targets are taken from the pool. -/
def unplaced (s : Search) (chosen : List Target) : List Target :=
  s.passed ++ s.remaining.filter fun target => !chosen.contains target

/-- When one more target is chosen, those in front of it and those behind it stay as they are. -/
theorem Sound.unplaced_cons (h : s.Sound) {front back : List Target}
    (hcut : s.remaining = front ++ target :: back) (chosen : List Target) :
    s.unplaced (target :: chosen) = s.passed ++
      (front.filter (fun other => !chosen.contains other) ++
        back.filter fun other => !chosen.contains other) := by
  have hdistinct := h.remaining_distinct
  rw [hcut] at hdistinct
  obtain ⟨-, hback, hfront⟩ := List.nodup_append.mp hdistinct
  have hkeep (others : List Target) (hothers : target ∉ others) :
      (others.filter fun other => !(target :: chosen).contains other) =
        others.filter fun other => !chosen.contains other := by
    apply List.filter_congr
    intro other hother
    have hne : other ≠ target := by
      rintro rfl
      exact hothers hother
    simp [hne]
  rw [unplaced, hcut, List.filter_append, List.filter_cons_of_neg (by simp),
    hkeep front fun hmem => hfront target hmem target List.mem_cons_self rfl,
    hkeep back (List.nodup_cons.mp hback).1]

/-- A target that was passed over is left over, and one that is taken is not. -/
theorem Sound.unplaced_take (h : s.Sound) (hi : s.remaining[i]? = some target)
    (hchosen : chosen ⊆ strictness.after i s.remaining) :
    (s.take strictness i).unplaced chosen = s.unplaced (target :: chosen) := by
  obtain ⟨trail, passed, remaining⟩ := s
  obtain ⟨front, back, rfl, rfl⟩ := Selection.exists_cut hi
  obtain ⟨-, -, hfront⟩ := List.nodup_append.mp h.remaining_distinct
  -- a strict slot leaves behind what it passes over, so no later slot has chosen it
  have hpassed (hsub : chosen ⊆ back) :
      front.filter (fun other => !chosen.contains other) = front := by
    rw [List.filter_eq_self]
    intro other hother
    have hnot : other ∉ chosen := fun hmem =>
      hfront other hother other (List.mem_cons_of_mem _ (hsub hmem)) rfl
    simpa using hnot
  rw [h.unplaced_cons rfl]
  cases strictness with
  | loose => simp [unplaced, Search.take, List.eraseIdx_append_of_length_le]
  | ordered =>
    rw [hpassed (by simpa [Strictness.after] using hchosen)]
    simp [unplaced, Search.take]
  | contiguous =>
    rw [hpassed (by simpa [Strictness.after] using hchosen)]
    simp [unplaced, Search.take]

end pool

/-- The result of a placement, and the search as it was. -/
def leave (oracle : Oracle) (c : Clause) (s : Search) (placed : List Target × Bindings) :
    Bindings × Search :=
  (Clause.collect oracle
    ((Target.inOrder (s.unplaced placed.1)).map Target.name) c.collectors placed.2, s)

/-- What comes of it when a slot takes the target at a position: the other slots are placed on
what is left. -/
def follow? (oracle : Oracle) (c : Clause) (slot : Slot) (slots : List Slot) (s : Search)
    (x : Target × Nat) : Option (List Target × Bindings) :=
  (slot.accept oracle s.bound x.1).bind fun next =>
    (Selection.find? c.strictness (Slot.accept oracle) false slots
      (c.strictness.after x.2 s.remaining) next).map fun (chosen, final) => (x.1 :: chosen, final)

/-- An attempt comes to what follows from it when all that goes on from there takes back what
it does. -/
theorem Sound.attempt_eq (h : s.Sound) (c : Clause) (slots : List Slot)
    {goOn : Search → Option Bindings × Search}
    (hgoOn : ∀ t : Search, t.Sound → goOn t = Selection.conclude t (leave oracle c t)
      (Selection.find? c.strictness (Slot.accept oracle) false slots t.remaining t.bound))
    (hi : s.remaining[i]? = some target) :
    attempt oracle c.strictness slot goOn i s =
      Selection.conclude s (leave oracle c s) (follow? oracle c slot slots s (target, i)) := by
  rw [attempt, hi, follow?]
  by_cases hfits : slot.fits oracle target = true
  · simp only [hfits, if_true]
    rcases h.bind?_cases hfits with ⟨hbind, haccept⟩ | ⟨grown, noted, hbind, hnotes, haccept⟩
    · simp [hbind, haccept, Selection.conclude]
    · have hremaining := hnotes.remaining_eq
      have hback : noted.putBack c.strictness i target (noted.take c.strictness i) = noted :=
        putBack_take (hremaining ▸ hi)
      have hunplaced (chosen : List Target)
          (hchosen : chosen ⊆ c.strictness.after i s.remaining) :
          (noted.take c.strictness i).unplaced chosen = s.unplaced (target :: chosen) := by
        rw [hnotes.sound.unplaced_take (hremaining ▸ hi) (hremaining ▸ hchosen), unplaced,
          unplaced, hnotes.passed_eq, hremaining]
      simp only [hbind, haccept, Option.bind_some, hgoOn _ (hnotes.sound.take c.strictness i),
        remaining_take, bound_take, hremaining]
      cases hfind : Selection.find? c.strictness (Slot.accept oracle) false slots
          (c.strictness.after i s.remaining) noted.bound with
      | none => simp [Selection.conclude, hback, hnotes.undone]
      | some placed =>
        simp [Selection.conclude, leave, hback, hnotes.undone,
          hunplaced placed.1 (Selection.subset_of_find? hfind)]
  · have haccept : slot.accept oracle s.bound target = none := if_neg hfits
    simp [hfits, haccept, Selection.conclude]

/-- The search leaves itself as it was, and its result is the first placement that is found
without a trail. -/
theorem Sound.place_eq (h : s.Sound) (oracle : Oracle) (c : Clause) (first : Bool)
    (slots : List Slot) :
    place oracle c first slots s = Selection.conclude s (leave oracle c s)
      (Selection.find? c.strictness (Slot.accept oracle) first slots s.remaining s.bound) := by
  induction slots generalizing first s with
  | nil => simp [place, Selection.conclude, leave, finish, leftovers, unplaced]
  | cons slot slots ih =>
    have hattempt : ∀ i ∈ List.range (c.strictness.window first s.remaining).length,
        (pure (attempt oracle c.strictness slot (place oracle c false slots) i s) : Id _) =
          Selection.conclude s (leave oracle c s) <$>
            (c.strictness.window first s.remaining)[i]?.elim (pure none) fun target =>
              pure (follow? oracle c slot slots s (target, i)) := by
      intro i hi
      have hlt := List.mem_range.mp hi
      rw [List.getElem?_eq_getElem hlt]
      have htarget := Strictness.getElem?_of_window (List.getElem?_eq_getElem hlt)
      exact h.attempt_eq c slots (fun t ht => ih ht false) htarget
    rw [place, Selection.attempts_eq_map hattempt,
      Selection.findSomeM?_range fun x => pure (follow? oracle c slot slots s x),
      Selection.find?_cons]
    exact congrArg (Selection.conclude s (leave oracle c s)) (Selection.run_findSomeM? ..)

end Search

namespace Component

theorem pairwise_targets (oracle : Oracle) (component : Component) :
    (component.targets oracle).Pairwise fun a b => a.index < b.index := by
  have hpositions : (component.tokens.zipIdx.map Prod.snd).Pairwise (· < ·) := by
    rw [List.zipIdx_map_snd]
    exact List.pairwise_lt_range'
  exact List.pairwise_map.mpr (List.pairwise_map.mp hpositions)

end Component

/-- Targets that stand in order stay as they are. -/
theorem Target.inOrder_of_pairwise {targets : List Target}
    (h : targets.Pairwise fun a b => a.index < b.index) : inOrder targets = targets := by
  induction targets with
  | nil => rfl
  | cons target others ih =>
    obtain ⟨hfirst, hrest⟩ := List.pairwise_cons.mp h
    rw [inOrder, List.foldr_cons, ← inOrder, ih hrest]
    cases others with
    | nil => rfl
    | cons other others => exact if_pos (Nat.le_of_lt (hfirst other List.mem_cons_self))

/-- Matching a clause binds what its placement binds, and then the collectors with the targets
that were not chosen. -/
theorem Clause.match?_eq_map_place? (oracle : Oracle) (c : Clause) (component : Component) :
    c.match? oracle component =
      (c.place? oracle (component.targets oracle)).map fun (chosen, bound) =>
        collect oracle
          (((component.targets oracle).filter fun target => !chosen.contains target).map
            Target.name) c.collectors bound := by
  have hordered := component.pairwise_targets oracle
  have hsound : (Search.start (component.targets oracle)).Sound :=
    ⟨List.nodup_nil, hordered.imp fun hlt heq => Nat.ne_of_lt hlt (congrArg Target.index heq)⟩
  have hplace := hsound.place_eq oracle c true (c.slots oracle)
  have hleft (chosen : List Target) :
      Target.inOrder ((Search.start (component.targets oracle)).unplaced chosen) =
        (component.targets oracle).filter fun target => !chosen.contains target :=
    Target.inOrder_of_pairwise (hordered.filter _)
  rw [match?, hplace, place?]
  simp only [Search.start, Search.bound, List.foldl_nil]
  cases Selection.find? c.strictness (Slot.accept oracle) true (c.slots oracle)
      (component.targets oracle) .empty with
  | none => rfl
  | some placed =>
    exact congrArg (fun left => some (collect oracle (left.map Target.name) c.collectors placed.2))
      (hleft placed.1)

end Simmer
