import Simmer.Logging
import Simmer.Proofs.Reduction.Normal

/-!
What a reduction tells of itself. An application that changes a component tells so once, and
these changes make a chain from the first component to the last one. The driver builds its fault
from other values than the applications build their events from; both name the last change.
-/
namespace Simmer

namespace Event

variable {level : Level} {events more : List Event}

theorem atLeast_append :
    atLeast level (events ++ more) = atLeast level events ++ atLeast level more :=
  List.filter_append events more

/-- The level and the message, as a log has them. -/
def line (event : Event) : Level × String :=
  (event.level, event.message)

theorem message_turned (rule : Rule) (before after : Subject) :
    (turned rule before after).message =
      "rule '" ++ rule.text ++ "' turned '" ++ before.text ++ "' into '" ++ after.text ++ "'" := by
  change "rule " ++ quote rule.text ++ " turned " ++ quote before.text ++ " into " ++
    quote after.text = _
  simp [quote, ← String.toList_inj]

theorem message_normalForm (value : Subject) (passes : Nat) :
    (normalForm value passes).message =
      "normal form '" ++ value.text ++ "' after " ++ toString passes ++ " pass(es)" := by
  change "normal form " ++ quote value.text ++ " after " ++ toString passes ++ " pass(es)" = _
  simp [quote, ← String.toList_inj]

theorem message_diverged (rule : Rule) (state : Subject) :
    (diverged (some rule) state).message =
      "reduction diverged at rule '" ++ rule.text ++ "' with state '" ++ state.text ++ "'" := by
  change "reduction diverged at rule " ++ quote rule.text ++ " with state " ++ quote state.text = _
  simp [quote, ← String.toList_inj]

end Event

theorem Pattern.level_of_mem_probe {oracle : Oracle} {component : Component} {p : Pattern}
    {event : Event} (h : event ∈ (p.probe oracle component).events) : event.level = .trace := by
  induction p with
  | plain c =>
    obtain rfl := List.mem_singleton.mp h
    rfl
  | «unless» c veto ih =>
    simp only [probe, Traced.events_bind, List.mem_append] at h
    rcases h with hveto | hown
    · exact ih hveto
    · split at hown
      · obtain rfl := List.mem_singleton.mp hown
        rfl
      · obtain rfl := List.mem_singleton.mp hown
        rfl

/-- Attempts at matching are told below the level of debugging. -/
theorem Pattern.atLeast_debug_probe (oracle : Oracle) (component : Component) (p : Pattern) :
    Event.atLeast .debug (p.probe oracle component).events = [] := by
  apply List.filter_eq_nil_iff.mpr
  intro event hevent
  rw [level_of_mem_probe hevent]
  decide

namespace Run

variable {α β : Type} {x : Run α}

/-- What the run tells at the level of debugging and above. -/
def told (x : Run α) : List Event :=
  Event.atLeast .debug x.events

theorem told_bind_of_ok {a : α} (h : x.outcome = .ok a) (f : α → Run β) :
    (x >>= f).told = x.told ++ (f a).told := by
  rw [told, events_bind, h, Event.atLeast_append]
  rfl

theorem told_bind_of_error {fault : Fault} (h : x.outcome = .error fault) (f : α → Run β) :
    (x >>= f).told = x.told := by
  rw [told, events_bind, h, List.append_nil]
  rfl

end Run

namespace ComponentRule

variable {oracle : Oracle} {r : ComponentRule} {c : Component}

theorem told_tryApply (oracle : Oracle) (r : ComponentRule) (c : Component) :
    (r.tryApply oracle c).told = [] := by
  have hprobe : Run.told (ExceptT.lift (r.lhs.probe oracle c)) = [] := by
    rw [Run.told, Run.events_lift, Pattern.atLeast_debug_probe]
  rw [tryApply, Run.told_bind_of_ok (Run.outcome_lift _), hprobe, List.nil_append]
  cases (r.lhs.probe oracle c).value with
  | none => rfl
  | some bound =>
    cases hout : r.rhs.instantiate bound with
    | error fault => simp only [hout]; rfl
    | ok out => simp only [hout]; rfl

/-- An application tells of the component that it makes when this is another one. -/
theorem told_apply {out : Component} (h : (r.apply oracle c).outcome = .ok out) :
    (r.apply oracle c).told =
      if out = c then [] else [.turned (.component r) (.component c) (.component out)] := by
  have hbind := h
  rw [apply, Run.outcome_bind] at hbind
  obtain ⟨found, hfound, hrest⟩ := Outcome.bind_eq_ok_iff.mp hbind
  rw [apply, Run.told_bind_of_ok hfound, told_tryApply, List.nil_append]
  cases found with
  | none =>
    obtain rfl := Except.ok.inj hrest
    simp only [if_true]
    rfl
  | some made =>
    by_cases hsame : made = c
    · simp only [if_pos hsame] at hrest ⊢
      obtain rfl := Except.ok.inj hrest
      simp only [if_pos hsame]
      rfl
    · simp only [if_neg hsame, Run.outcome_bind, Run.outcome_tell, Except.bind] at hrest ⊢
      obtain rfl := Except.ok.inj hrest
      rw [if_neg hsame]
      rfl

end ComponentRule

namespace Rewriting

variable {α κ β : Type}

/-- A change that a rule has made. -/
structure Turn (α : Type) where
  rule : Rule
  before : α
  after : α

def Turn.event (r : Rewriting α κ) (turn : Turn α) : Event :=
  .turned turn.rule (r.subject turn.before) (r.subject turn.after)

/-- Changes by the rules from one value to another, each going on where the last one ended. -/
inductive Chain (r : Rewriting α κ) (rules : List Rule) : α → List (Turn α) → α → Prop
  | nil (x : α) : Chain r rules x [] x
  | cons {rule : Rule} {x y z : α} {turns : List (Turn α)} (hrule : rule ∈ rules)
      (happly : r.Applies rule x y) (hkey : r.key y ≠ r.key x) (hrest : Chain r rules y turns z) :
      Chain r rules x (⟨rule, x, y⟩ :: turns) z

/-- Every application tells of the change that it makes, and of nothing else that matters. -/
def Announces (r : Rewriting α κ) (rules : List Rule) : Prop :=
  ∀ rule ∈ rules, ∀ x, ∃ y, r.Applies rule x y ∧
    (r.key y = r.key x → (r.apply rule x).told = []) ∧
    (r.key y ≠ r.key x → (r.apply rule x).told = [.turned rule (r.subject x) (r.subject y)])

namespace Chain

variable {r : Rewriting α κ} {rules others : List Rule} {x y z : α} {turns more : List (Turn α)}

theorem append (h : r.Chain rules x turns y) (hmore : r.Chain rules y more z) :
    r.Chain rules x (turns ++ more) z := by
  induction h with
  | nil => exact hmore
  | cons hrule happly hkey _ ih => exact .cons hrule happly hkey (ih hmore)

theorem mono (h : r.Chain rules x turns y) (hsub : rules ⊆ others) :
    r.Chain others x turns y := by
  induction h with
  | nil => exact .nil _
  | cons hrule happly hkey _ ih => exact .cons (hsub hrule) happly hkey ih

/-- A chain with a change in it ends with the value that the last change has made. -/
theorem after_eq {last : Turn α} (h : r.Chain rules x turns y)
    (hlast : turns.getLast? = some last) : last.after = y := by
  induction h with
  | nil => cases hlast
  | @cons rule x y z turns hrule happly hkey hrest ih =>
    cases turns with
    | nil =>
      cases hrest
      obtain rfl := Option.some.inj hlast
      rfl
    | cons turn turns => exact ih (by rwa [List.getLast?_cons_cons] at hlast)

end Chain

/-- The run comes to its end, tells of a chain of changes and then of something more. -/
structure Ends (r : Rewriting α κ) (rules : List Rule) (x : α) (run : Run β)
    (turns : List (Turn α)) (y : α) (result : β) (more : List Event) : Prop where
  chain : r.Chain rules x turns y
  outcome : run.outcome = .ok result
  told : run.told = turns.map (Turn.event r) ++ more

/-- The run is given up after a chain of changes. The rule of the last change is blamed, or
the rule `last` from before when nothing has changed. -/
structure Breaks (r : Rewriting α κ) (limit : Nat) (rules : List Rule) (last : Option Rule)
    (x : α) (run : Run β) (turns : List (Turn α)) (y : α) (rule : Rule) : Prop where
  chain : r.Chain rules x turns y
  blamed : (turns.getLast?.map Turn.rule).or last = some rule
  outcome : run.outcome = .error (.diverging rule.text (r.subject y).text limit)
  told : run.told = turns.map (Turn.event r) ++ [.diverged (some rule) (r.subject y)]

section run

variable {r : Rewriting α κ} {limit : Nat} {rule : Rule} {rules others : List Rule}
variable {last later : Option Rule} {x y z : α} {turns earlier : List (Turn α)}
variable {γ : Type} {first : Run β} {b : β} {f : β → Run γ} {run : Run β}

theorem breaks_diverge (r : Rewriting α κ) (limit : Nat) (rules : List Rule) (rule : Rule)
    (x : α) :
    r.Breaks limit rules (some rule) x (r.diverge limit (some rule) x : Run β) [] x rule where
  chain := .nil x
  blamed := rfl
  outcome := rfl
  told := rfl

theorem Ends.mono {more : List Event} (h : r.Ends rules x run turns y b more)
    (hsub : rules ⊆ others) : r.Ends others x run turns y b more :=
  ⟨h.chain.mono hsub, h.outcome, h.told⟩

theorem Breaks.of_none (h : r.Breaks limit rules none x run turns y rule) :
    r.Breaks limit rules last x run turns y rule := by
  refine ⟨h.chain, ?_, h.outcome, h.told⟩
  have hblamed := h.blamed
  rw [Option.or_none] at hblamed
  rw [hblamed, Option.some_or]

theorem Ends.bind {c : γ} {more : List Event} (hfirst : r.Ends rules x first earlier y b [])
    (hrest : r.Ends rules y (f b) turns z c more) :
    r.Ends rules x (first >>= f) (earlier ++ turns) z c more where
  chain := hfirst.chain.append hrest.chain
  outcome := by rw [Run.outcome_bind, hfirst.outcome]; exact hrest.outcome
  told := by
    rw [Run.told_bind_of_ok hfirst.outcome, hfirst.told, hrest.told, List.map_append,
      List.append_nil, List.append_assoc]

/-- A run that breaks off leaves nothing to the runs behind it. -/
theorem Breaks.bind (h : r.Breaks limit rules none x first turns y rule)
    (hsub : rules ⊆ others) : r.Breaks limit others last x (first >>= f) turns y rule where
  chain := h.chain.mono hsub
  blamed := h.of_none.blamed
  outcome := by rw [Run.outcome_bind, h.outcome]; rfl
  told := by rw [Run.told_bind_of_error h.outcome, h.told]

/-- A rule that is blamed without a change of its own has made the last one before. -/
theorem Ends.bind_breaks (hfirst : r.Ends rules x first earlier y b [])
    (hrest : r.Breaks limit rules later y (f b) turns z rule)
    (hlater : later = none ∨ earlier.getLast?.map Turn.rule = later) :
    r.Breaks limit rules last x (first >>= f) (earlier ++ turns) z rule where
  chain := hfirst.chain.append hrest.chain
  blamed := by
    have hblamed := hrest.blamed
    rw [List.getLast?_append, Option.map_or]
    rcases hlater with rfl | hlater
    · rw [Option.or_none] at hblamed
      rw [hblamed, Option.some_or, Option.some_or]
    · rw [hlater, hblamed, Option.some_or]
  outcome := by rw [Run.outcome_bind, hfirst.outcome]; exact hrest.outcome
  told := by
    rw [Run.told_bind_of_ok hfirst.outcome, hfirst.told, hrest.told, List.map_append,
      List.append_nil, List.append_assoc]

/-- An application is a chain of one change or of none. -/
theorem ends_apply (h : r.Announces rules) (hrule : rule ∈ rules) (x : α) :
    ∃ y, (r.key y = r.key x ∧ r.Ends rules x (r.apply rule x) [] x y []) ∨
      (r.key y ≠ r.key x ∧ r.Ends rules x (r.apply rule x) [⟨rule, x, y⟩] y y []) := by
  obtain ⟨y, happly, hstill, hmoved⟩ := h rule hrule x
  by_cases hkey : r.key y = r.key x
  · exact ⟨y, Or.inl ⟨hkey, .nil x, happly, hstill hkey⟩⟩
  · exact ⟨y, Or.inr ⟨hkey, .cons hrule happly hkey (.nil y), happly, hmoved hkey⟩⟩

/-- In a chain of one rule, the last change is by this rule. -/
theorem Chain.rule_getLast? (h : r.Chain [rule] x turns y) :
    turns.getLast?.map Turn.rule = if !turns.isEmpty then some rule else none := by
  induction h with
  | nil => rfl
  | @cons other x y z turns hrule happly hkey hrest ih =>
    obtain rfl := List.mem_singleton.mp hrule
    cases turns with
    | nil => rfl
    | cons turn turns => rw [List.getLast?_cons_cons, ih]; rfl

variable [BEq κ] [Hashable κ] [LawfulBEq κ]

theorem step_trail {moved : Bool} {seen : Std.HashSet κ} {again : α → Run (α × Bool)}
    (h : r.Announces [rule])
    (hagain : ∀ next,
      (∃ turns y, r.Ends [rule] next (again next) turns y (y, true) []) ∨
        ∃ turns y blamed, r.Breaks limit [rule] (some rule) next (again next) turns y blamed) :
    (∃ turns y, r.Ends [rule] x (r.step limit rule moved seen x again) turns y
      (y, moved || !turns.isEmpty) []) ∨
    ∃ turns y blamed, r.Breaks limit [rule] none x (r.step limit rule moved seen x again)
      turns y blamed := by
  obtain ⟨next, ⟨hkey, hfirst⟩ | ⟨hkey, hfirst⟩⟩ := r.ends_apply h List.mem_cons_self x
  · have hrest : r.Ends [rule] x (pure (x, moved)) [] x (x, moved) [] := ⟨.nil x, rfl, rfl⟩
    left
    refine ⟨[], x, ?_⟩
    rw [List.isEmpty_nil, Bool.not_true, Bool.or_false]
    exact hfirst.bind (by rwa [if_pos (beq_iff_eq.mpr hkey)])
  · have hnew : ¬ (r.key next == r.key x) = true := fun heq => hkey (beq_iff_eq.mp heq)
    have hturn : [(⟨rule, x, next⟩ : Turn α)].getLast?.map Turn.rule = some rule := rfl
    by_cases hseen : seen.contains (r.key x) = true
    · right
      have hrest : r.Breaks limit [rule] (some rule) next
          (r.diverge limit (some rule) next : Run (α × Bool)) [] next rule :=
        r.breaks_diverge limit [rule] rule next
      refine ⟨[⟨rule, x, next⟩] ++ [], next, rule, hfirst.bind_breaks ?_ (Or.inr hturn)⟩
      rwa [if_neg hnew, if_pos hseen]
    · rcases hagain next with ⟨turns, y, hrest⟩ | ⟨turns, y, blamed, hrest⟩
      · left
        refine ⟨[⟨rule, x, next⟩] ++ turns, y, hfirst.bind ?_⟩
        rw [if_neg hnew, if_neg hseen, List.singleton_append, List.isEmpty_cons, Bool.not_false,
          Bool.or_true]
        exact hrest
      · right
        refine ⟨[⟨rule, x, next⟩] ++ turns, y, blamed, hfirst.bind_breaks ?_ (Or.inr hturn)⟩
        rwa [if_neg hnew, if_neg hseen]

/-- The run of one rule ends with what its changes have made, or breaks off behind one of them. -/
theorem settle_trail (h : r.Announces [rule]) (limit spare : Nat) (moved : Bool)
    (seen : Std.HashSet κ) (x : α) :
    (∃ turns y, r.Ends [rule] x (r.settle limit rule spare moved seen x) turns y
      (y, moved || !turns.isEmpty) []) ∨
    ∃ turns y blamed, r.Breaks limit [rule] none x (r.settle limit rule spare moved seen x)
      turns y blamed := by
  induction spare generalizing x moved seen with
  | zero =>
    -- with no step to spare, the first change gives the run up
    exact step_trail h fun next => Or.inr ⟨[], next, rule, r.breaks_diverge limit [rule] rule next⟩
  | succ spare ih =>
    refine step_trail h fun next => ?_
    rcases ih true (seen.insert (r.key x)) next with ⟨turns, y, hends⟩ | ⟨turns, y, blamed, hbreaks⟩
    · exact Or.inl ⟨turns, y, by rwa [Bool.true_or] at hends⟩
    · exact Or.inr ⟨turns, y, blamed, hbreaks.of_none⟩

/-- A pass names the rule of its last change. -/
theorem pass_trail (h : r.Announces rules) (limit : Nat) (x : α) :
    (∃ turns y, r.Ends rules x (r.pass limit rules x) turns y
      (y, turns.getLast?.map Turn.rule) []) ∨
    ∃ turns y blamed, r.Breaks limit rules none x (r.pass limit rules x) turns y blamed := by
  induction rules generalizing x with
  | nil => exact Or.inl ⟨[], x, .nil x, rfl, rfl⟩
  | cons rule rules ih =>
    have hrule : r.Announces [rule] := fun other hother => h other (by simp_all)
    have hrules : r.Announces rules := fun other hother => h other (List.mem_cons_of_mem _ hother)
    have hone : [rule] ⊆ rule :: rules := by simp
    rcases settle_trail hrule limit (limit - 1) false ∅ x with
      ⟨turns, y, hsettle⟩ | ⟨turns, y, blamed, hsettle⟩
    · rcases ih hrules y with ⟨more, z, hpass⟩ | ⟨more, z, blamed, hpass⟩
      · left
        refine ⟨turns ++ more, z, (hsettle.mono hone).bind ?_⟩
        -- The rules behind are asked first, and they have made the later changes.
        have hlater : (turns ++ more).getLast?.map Turn.rule =
            (more.getLast?.map Turn.rule <|> if !turns.isEmpty then some rule else none) := by
          rw [List.getLast?_append, Option.map_or, hsettle.chain.rule_getLast?,
            Option.orElse_eq_orElse, Option.orElse_eq_or]
        have hrest := hpass.mono (List.subset_cons_self rule rules)
        rw [hlater, ← List.append_nil more]
        refine hrest.bind ⟨.nil z, ?_, rfl⟩
        rw [List.append_nil]
        rfl
      · right
        refine ⟨turns ++ more, z, blamed, (hsettle.mono hone).bind_breaks ?_ (Or.inl rfl)⟩
        exact hpass.bind (by simp)
    · exact Or.inr ⟨turns, y, blamed, hsettle.bind hone⟩

/-- A state that comes back at the start of a pass is blamed on the rule that changed something
last; so there has to be such a rule. -/
theorem round_trail {done : Nat} {seen : Std.HashSet κ} {again : Rule → α → Run α}
    (h : r.Announces rules) (hlast : last = none → seen.contains (r.key x) = false)
    (hagain : ∀ rule next,
      (∃ turns v done, r.Ends rules next (again rule next) turns v v
        [.normalForm (r.subject v) done]) ∨
      ∃ turns y blamed, r.Breaks limit rules (some rule) next (again rule next) turns y blamed) :
    (∃ turns v done', r.Ends rules x (r.round limit rules done seen last x again) turns v v
      [.normalForm (r.subject v) done']) ∨
    ∃ turns y blamed, r.Breaks limit rules last x (r.round limit rules done seen last x again)
      turns y blamed := by
  unfold round
  by_cases hseen : seen.contains (r.key x) = true
  · cases last with
    | none => simp [hseen] at hlast
    | some rule =>
      rw [if_pos hseen]
      exact Or.inr ⟨[], x, rule, r.breaks_diverge limit rules rule x⟩
  · rw [if_neg hseen]
    rcases pass_trail h limit x with ⟨turns, y, hpass⟩ | ⟨turns, y, blamed, hpass⟩
    · cases hchanged : turns.getLast?.map Turn.rule with
      | none =>
        rw [hchanged] at hpass
        left
        refine ⟨turns ++ [], y, done + 1, hpass.bind ⟨.nil y, rfl, rfl⟩⟩
      | some rule =>
        rw [hchanged] at hpass
        rcases hagain rule y with ⟨more, v, done', hrest⟩ | ⟨more, v, blamed, hrest⟩
        · exact Or.inl ⟨turns ++ more, v, done', hpass.bind hrest⟩
        · exact Or.inr ⟨turns ++ more, v, blamed, hpass.bind_breaks hrest (Or.inr hchanged)⟩
    · exact Or.inr ⟨turns, y, blamed, hpass.bind (List.Subset.refl rules)⟩

theorem passes_trail (h : r.Announces rules) (spare done : Nat) (seen : Std.HashSet κ)
    (last : Option Rule) (x : α) (hlast : last = none → seen.contains (r.key x) = false) :
    (∃ turns v done', r.Ends rules x (r.passes limit rules spare done seen last x) turns v v
      [.normalForm (r.subject v) done']) ∨
    ∃ turns y blamed, r.Breaks limit rules last x (r.passes limit rules spare done seen last x)
      turns y blamed := by
  induction spare generalizing x done seen last with
  | zero =>
    exact round_trail h hlast fun rule next =>
      Or.inr ⟨[], next, rule, r.breaks_diverge limit rules rule next⟩
  | succ spare ih =>
    exact round_trail h hlast fun rule next =>
      ih (done + 1) (seen.insert (r.key x)) (some rule) next (by simp)

/-- A reduction ends with the value of the last change, or breaks off with that value and with
the rule of that change. -/
theorem drive_trail (h : r.Announces rules) (limit : Nat) (x : α) :
    (∃ turns v done, r.Ends rules x (r.drive limit rules x) turns v v
      [.normalForm (r.subject v) done]) ∨
    ∃ turns y blamed, r.Breaks limit rules none x (r.drive limit rules x) turns y blamed :=
  passes_trail h (limit - 1) 0 ∅ none x fun _ => Std.HashSet.contains_empty

end run

theorem announces_components (oracle : Oracle) (rules : List Rule) :
    (ofComponents oracle).Announces rules := by
  intro rule _ c
  cases rule with
  | component r =>
    obtain ⟨out, hout⟩ := r.exists_apply oracle c
    have htold := ComponentRule.told_apply hout
    refine ⟨out, hout, fun hkey => ?_, fun hkey => ?_⟩
    · rw [if_pos (show out = c from hkey)] at htold
      exact htold
    · rw [if_neg (show ¬ out = c from hkey)] at htold
      exact htold
  | mixture r => exact ⟨c, rfl, fun _ => rfl, fun hkey => absurd rfl hkey⟩

/-- The line of a change in a log. -/
def Turn.line (turn : Turn Component) : Level × String :=
  (.debug, "rule '" ++ turn.rule.text ++ "' turned '" ++ turn.before.text ++ "' into '" ++
    turn.after.text ++ "'")

theorem map_line_turns (oracle : Oracle) (turns : List (Turn Component)) :
    (turns.map (Turn.event (ofComponents oracle))).map Event.line = turns.map Turn.line := by
  rw [List.map_map]
  exact List.map_congr_left fun turn _ =>
    congrArg (Level.debug, ·) (Event.message_turned turn.rule _ _)

end Rewriting

theorem Rule.text_ne_none (rule : Rule) : rule.text ≠ "<none>" := by
  have harrow : '-' ∈ rule.text.toList := by
    cases rule with
    | component r => simp [text, ComponentRule.text]
    | mixture r => simp [text, MixtureRule.text]
  intro h
  rw [h] at harrow
  revert harrow
  decide

namespace RuleSystem

/-- A component's reduction tells of a chain of changes from the component on, each by a rule of
the system. The last line names what the chain ends with: a normal form, which is the result, or
the state at which the reduction was given up, and then the last change is by the rule blamed. -/
theorem reduceComponent_trail (s : RuleSystem) (c : Component) :
    ∃ turns v,
      (Rewriting.ofComponents s.oracle).Chain (s.rules.filter Rule.isComponent) c turns v ∧
      ((∃ passes : Nat, (s.reduceComponent c).outcome = .ok v ∧
        (Event.atLeast .debug (s.reduceComponent c).events).map Event.line =
          turns.map Rewriting.Turn.line ++
            [(.debug, "normal form '" ++ v.text ++ "' after " ++ toString passes ++ " pass(es)")]) ∨
      ∃ last, turns.getLast? = some last ∧ last.after = v ∧ last.rule.text ≠ "<none>" ∧
        (s.reduceComponent c).outcome = .error (.diverging last.rule.text v.text s.cap) ∧
        (Event.atLeast .debug (s.reduceComponent c).events).map Event.line =
          turns.map Rewriting.Turn.line ++
            [(.warn, "reduction diverged at rule '" ++ last.rule.text ++ "' with state '" ++
              v.text ++ "'")]) := by
  have hannounces := Rewriting.announces_components s.oracle (s.rules.filter Rule.isComponent)
  rcases Rewriting.drive_trail hannounces s.cap c with
    ⟨turns, v, passes, hends⟩ | ⟨turns, v, rule, hbreaks⟩
  · refine ⟨turns, v, hends.chain, Or.inl ⟨passes, hends.outcome, ?_⟩⟩
    have htold := congrArg (List.map Event.line) hends.told
    rw [List.map_append, Rewriting.map_line_turns, List.map_singleton, Event.line,
      Event.message_normalForm] at htold
    exact htold
  · have hblamed := hbreaks.blamed
    rw [Option.or_none] at hblamed
    obtain ⟨last, hlast, rfl⟩ := Option.map_eq_some_iff.mp hblamed
    refine ⟨turns, v, hbreaks.chain, Or.inr ⟨last, hlast, hbreaks.chain.after_eq hlast,
      last.rule.text_ne_none, hbreaks.outcome, ?_⟩⟩
    have htold := congrArg (List.map Event.line) hbreaks.told
    rw [List.map_append, Rewriting.map_line_turns, List.map_singleton, Event.line,
      Event.message_diverged] at htold
    exact htold

/-- What seasoning makes of an onion with two helpings of salt. -/
def seasoning : Rewriting.Turn Component :=
  ⟨.component season, ⟨["salty", "hot", "salty", "Onion"]⟩, ⟨["hot", "salty", "Onion"]⟩⟩

theorem applies_seasoning (cap : Nat) : (Rewriting.ofComponents (kitchen cap).oracle).Applies
    seasoning.rule seasoning.before seasoning.after :=
  applies_image (kitchen cap).oracle season seasoning.before

theorem still_after_seasoning (cap : Nat) : (Rewriting.ofComponents (kitchen cap).oracle).Applies
    seasoning.rule seasoning.after seasoning.after :=
  applies_image (kitchen cap).oracle season seasoning.after

/-- No other change follows this one, whatever the cap. -/
theorem chain_seasoning {cap : Nat} {turns : List (Rewriting.Turn Component)} {v : Component}
    (h : (Rewriting.ofComponents (kitchen cap).oracle).Chain [seasoning.rule] seasoning.before
      turns v) :
    (turns = [] ∧ v = seasoning.before) ∨ (turns = [seasoning] ∧ v = seasoning.after) := by
  cases h with
  | nil => exact Or.inl ⟨rfl, rfl⟩
  | cons hrule happly _ hrest =>
    obtain rfl := List.mem_singleton.mp hrule
    obtain rfl := (applies_seasoning cap).unique happly
    cases hrest with
    | nil => exact Or.inr ⟨rfl, rfl⟩
    | cons hrule' happly' hkey' _ =>
      obtain rfl := List.mem_singleton.mp hrule'
      exact absurd ((still_after_seasoning cap).unique happly').symm hkey'

/-- Under a cap that one change exhausts there is no result. -/
theorem reduceComponent_seasoning_ne_ok (v : Component) :
    ((kitchen 1).reduceComponent seasoning.before).outcome ≠ .ok v := by
  intro h
  obtain ⟨log, hlog, hwithin⟩ := reduceComponent_eq_ok_iff.mp h
  cases hlog with
  | last hpass hquiet =>
    have hstill := (hpass.of_quiet hquiet).2 seasoning.rule List.mem_cons_self
    obtain ⟨next, hnext, hkey⟩ := hstill.exists_applies
    obtain rfl := (applies_seasoning 1).unique hnext
    exact absurd (hkey.mp rfl) (by decide)
  | @more _ _ _ _ log _ _ hrest =>
    have hle : log.length + 1 ≤ 1 := hwithin.passes_le
    have hlog : log ≠ [] := by
      cases hrest <;> simp
    exact absurd (List.length_pos_of_ne_nil hlog) (by omega)

/-- Seasoning under a cap of two changes ends with the onion that has one helping of salt. Under
a cap of one the change itself exhausts the cap, and is both told and blamed. -/
theorem reduceComponent_trail_seasoning :
    seasoning.line = (.debug, "rule 'o1 salty salty i1 -> o1 salty i1' turned " ++
        "'salty hot salty Onion' into 'hot salty Onion'") ∧
      (∃ passes : Nat, (Event.atLeast .debug
          ((kitchen 2).reduceComponent seasoning.before).events).map Event.line =
        [seasoning.line,
          (.debug, "normal form 'hot salty Onion' after " ++ toString passes ++ " pass(es)")]) ∧
      ((kitchen 1).reduceComponent seasoning.before).outcome =
        .error (.diverging "o1 salty salty i1 -> o1 salty i1" "hot salty Onion" 1) ∧
      (Event.atLeast .debug
          ((kitchen 1).reduceComponent seasoning.before).events).map Event.line =
        [seasoning.line, (.warn, "reduction diverged at rule " ++
          "'o1 salty salty i1 -> o1 salty i1' with state 'hot salty Onion'")] := by
  refine ⟨by decide +kernel, ?_, ?_⟩
  · obtain ⟨turns, v, hchain, hends | hbreaks⟩ :=
      reduceComponent_trail (kitchen 2) seasoning.before
    · obtain ⟨passes, hok, hlines⟩ := hends
      obtain rfl := Except.ok.inj (hok.symm.trans reduceComponent_salty)
      rcases chain_seasoning hchain with ⟨-, hv⟩ | ⟨rfl, -⟩
      · exact absurd hv (by decide)
      · exact ⟨passes, hlines⟩
    · obtain ⟨last, -, -, -, herror, -⟩ := hbreaks
      rw [show seasoning.before = ⟨["salty", "hot", "salty", "Onion"]⟩ from rfl,
        reduceComponent_salty] at herror
      cases herror
  · obtain ⟨turns, v, hchain, hends | hbreaks⟩ :=
      reduceComponent_trail (kitchen 1) seasoning.before
    · obtain ⟨passes, hok, hlines⟩ := hends
      exact absurd hok (reduceComponent_seasoning_ne_ok v)
    · obtain ⟨last, hlast, -, -, herror, hlines⟩ := hbreaks
      rcases chain_seasoning hchain with ⟨rfl, -⟩ | ⟨rfl, rfl⟩
      · cases hlast
      · obtain rfl := Option.some.inj hlast
        exact ⟨herror, hlines⟩

end RuleSystem

end Simmer
