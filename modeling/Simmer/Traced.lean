import Simmer.Event

/-!
Values that come with a trail. `Traced` is a value together with the events on the way to it,
in order; a `Run` may also stop with a fault, and then the events before the fault are kept.
-/
namespace Simmer

structure Traced (α : Type) where
  value : α
  events : List Event

namespace Traced

variable {α β : Type}

@[ext]
theorem ext {x y : Traced α} (hv : x.value = y.value) (he : x.events = y.events) : x = y := by
  cases x
  cases y
  simp_all

instance : Monad Traced where
  pure value := ⟨value, []⟩
  bind x f := ⟨(f x.value).value, x.events ++ (f x.value).events⟩

@[simp]
theorem value_pure (a : α) : (pure a : Traced α).value = a := rfl

@[simp]
theorem events_pure (a : α) : (pure a : Traced α).events = [] := rfl

@[simp]
theorem value_bind (x : Traced α) (f : α → Traced β) :
    (x >>= f).value = (f x.value).value := rfl

@[simp]
theorem events_bind (x : Traced α) (f : α → Traced β) :
    (x >>= f).events = x.events ++ (f x.value).events := rfl

@[simp]
theorem value_map (f : α → β) (x : Traced α) : (f <$> x).value = f x.value := rfl

@[simp]
theorem events_map (f : α → β) (x : Traced α) : (f <$> x).events = x.events :=
  List.append_nil _

instance : LawfulMonad Traced := LawfulMonad.mk' Traced
  (fun x => Traced.ext rfl (List.append_nil _))
  (fun _ _ => Traced.ext rfl (List.nil_append _))
  (fun _ _ _ => Traced.ext rfl (List.append_assoc _ _ _))

def tell (events : List Event) : Traced Unit :=
  ⟨(), events⟩

end Traced

abbrev Run (α : Type) := ExceptT Fault Traced α

namespace Run

variable {α : Type}

/-- How the run ends. -/
def outcome (run : Run α) : Except Fault α :=
  (ExceptT.run run).value

/-- What the run tells, up to its end or its fault. -/
def events (run : Run α) : List Event :=
  (ExceptT.run run).events

def tell (events : List Event) : Run Unit :=
  ExceptT.lift (Traced.tell events)

/-- A step that tells nothing. -/
def ofExcept (result : Except Fault α) : Run α :=
  ExceptT.mk (pure result)

variable {β : Type}

@[simp]
theorem outcome_pure (a : α) : outcome (pure a) = .ok a := rfl

@[simp]
theorem events_pure (a : α) : events (pure a : Run α) = [] := rfl

@[simp]
theorem outcome_throw (fault : Fault) : outcome (throw fault : Run α) = .error fault := rfl

@[simp]
theorem events_throw (fault : Fault) : events (throw fault : Run α) = [] := rfl

@[simp]
theorem outcome_bind (x : Run α) (f : α → Run β) :
    outcome (x >>= f) = x.outcome.bind fun a => (f a).outcome := by
  simp only [outcome, ExceptT.run_bind, Traced.value_bind, Except.bind]
  split <;> simp_all

@[simp]
theorem events_bind (x : Run α) (f : α → Run β) :
    events (x >>= f) = x.events ++
      match x.outcome with
      | .ok a => (f a).events
      | .error _ => [] := by
  simp only [events, outcome, ExceptT.run_bind, Traced.events_bind]
  split <;> simp_all

@[simp]
theorem outcome_tell (told : List Event) : (tell told).outcome = .ok () := rfl

@[simp]
theorem events_tell (told : List Event) : (tell told).events = told := by
  simp [tell, events, Traced.tell]

@[simp]
theorem outcome_ofExcept (result : Except Fault α) : (ofExcept result).outcome = result := rfl

@[simp]
theorem events_ofExcept (result : Except Fault α) : (ofExcept result).events = [] := rfl

@[simp]
theorem outcome_lift (t : Traced α) : outcome (ExceptT.lift t) = .ok t.value := rfl

@[simp]
theorem events_lift (t : Traced α) : events (ExceptT.lift t) = t.events := by
  simp [events]

end Run

end Simmer
