import Simmer.RuleSet.Basic
import Simmer.Proofs.Roster
import Simmer.Proofs.Sorted

/-!
What a tag table answers after a history of calls. A call adds to what is known of one name, so a
table answers for the calls together and not for their order: a name is a base when it was
registered, and its tags are the name itself, the ancestors that came with it and the aliases that
have it among their members. Seeding a table from a rule set is such a history.
-/
namespace Simmer.TagTable

/-- A call that adds to a table. -/
inductive Call where
  | ingredient (name : String) (ancestors : List String)
  | tagAlias (tag : String) (members : List String)
deriving DecidableEq, Repr

def perform (t : TagTable) : Call → TagTable
  | .ingredient name ancestors => t.addIngredient name ancestors
  | .tagAlias tag members => t.addAlias tag members

/-- The table after a history of calls. -/
def after (calls : List Call) : TagTable :=
  calls.foldl perform empty

section history

variable {calls calls' : List Call} {name tag ancestor : String}

/-- Some call registers the name as an ingredient. -/
def Registers (calls : List Call) (name : String) : Prop :=
  ∃ ancestors, .ingredient name ancestors ∈ calls

/-- Some call gives the name this ancestor. -/
def Derives (calls : List Call) (name ancestor : String) : Prop :=
  ∃ ancestors, .ingredient name ancestors ∈ calls ∧ ancestor ∈ ancestors

/-- Some call puts the tag on the name. -/
def Aliases (calls : List Call) (tag name : String) : Prop :=
  ∃ members, .tagAlias tag members ∈ calls ∧ name ∈ members

theorem registers_append :
    Registers (calls ++ calls') name ↔ Registers calls name ∨ Registers calls' name := by
  simp only [Registers, List.mem_append, exists_or]

theorem derives_append :
    Derives (calls ++ calls') name ancestor ↔
      Derives calls name ancestor ∨ Derives calls' name ancestor := by
  simp only [Derives, List.mem_append, or_and_right, exists_or]

theorem aliases_append :
    Aliases (calls ++ calls') tag name ↔ Aliases calls tag name ∨ Aliases calls' tag name := by
  simp only [Aliases, List.mem_append, or_and_right, exists_or]

end history

section entries

variable {r : Roster (List String)} {key name other : String} {more : List String}

/-- The names that are stored under a name, and none where nothing is. -/
def listed (r : Roster (List String)) (name : String) : List String :=
  (r.get? name).getD []

theorem contains_extend :
    (extend r key more).contains name = true ↔ r.contains name = true ∨ name = key := by
  rw [extend, Roster.contains, Roster.contains, Roster.get?_update]
  by_cases hname : name = key <;> simp [hname]

theorem mem_listed_extend :
    other ∈ listed (extend r key more) name ↔ other ∈ listed r name ∨ name = key ∧ other ∈ more := by
  rw [listed, listed, extend, Roster.get?_update]
  by_cases hname : name = key <;> simp [hname]

end entries

section answers

variable {t t' t'' : TagTable} {calls calls' : List Call} {name tag : String}

theorem mem_aliasesOf : tag ∈ t.aliasesOf name ↔ name ∈ listed t.aliases tag := by
  have hentry : tag ∈ t.aliasesOf name ↔
      ∃ members, t.aliases.get? tag = some members ∧ name ∈ members := by
    simp [aliasesOf, Roster.get?_eq_some_iff]
  rw [hentry, listed]
  cases t.aliases.get? tag <;> simp

theorem mem_tagsOf :
    tag ∈ t.tagsOf name ↔
      tag = name ∨ tag ∈ listed t.ancestry name ∨ tag ∈ t.aliasesOf name := by
  rw [tagsOf, List.mem_cons, List.mem_append]
  rfl

/-- The table `t'` knows what `t` knows and what the calls tell, and nothing else. -/
structure Extends (t : TagTable) (calls : List Call) (t' : TagTable) : Prop where
  isBase_iff : ∀ name, t'.isBase name = true ↔ t.isBase name = true ∨ Registers calls name
  mem_listed_iff : ∀ name ancestor,
    ancestor ∈ listed t'.ancestry name ↔
      ancestor ∈ listed t.ancestry name ∨ Derives calls name ancestor
  mem_aliasesOf_iff : ∀ name tag,
    tag ∈ t'.aliasesOf name ↔ tag ∈ t.aliasesOf name ∨ Aliases calls tag name

theorem extends_nil (t : TagTable) : t.Extends [] t where
  isBase_iff name := by simp [Registers]
  mem_listed_iff name ancestor := by simp [Derives]
  mem_aliasesOf_iff name tag := by simp [Aliases]

theorem extends_perform (t : TagTable) (call : Call) : t.Extends [call] (t.perform call) := by
  cases call with
  | ingredient key more =>
    refine ⟨fun name => ?_, fun name ancestor => ?_, fun name tag => ?_⟩
    · rw [perform, addIngredient, isBase, isBase, contains_extend]
      simp [Registers]
    · rw [perform, addIngredient, mem_listed_extend]
      simp [Derives, and_assoc]
    · simp [perform, addIngredient, aliasesOf, Aliases]
  | tagAlias key more =>
    refine ⟨fun name => ?_, fun name ancestor => ?_, fun name tag => ?_⟩
    · simp [perform, addAlias, isBase, Registers]
    · simp [perform, addAlias, Derives]
    · rw [perform, addAlias, mem_aliasesOf, mem_aliasesOf, mem_listed_extend]
      simp [Aliases, and_assoc]

theorem Extends.trans (h : t.Extends calls t') (h' : t'.Extends calls' t'') :
    t.Extends (calls ++ calls') t'' where
  isBase_iff name := by rw [h'.isBase_iff, h.isBase_iff, registers_append, or_assoc]
  mem_listed_iff name ancestor := by
    rw [h'.mem_listed_iff, h.mem_listed_iff, derives_append, or_assoc]
  mem_aliasesOf_iff name tag := by
    rw [h'.mem_aliasesOf_iff, h.mem_aliasesOf_iff, aliases_append, or_assoc]

theorem extends_foldl (t : TagTable) (calls : List Call) :
    t.Extends calls (calls.foldl perform t) := by
  induction calls generalizing t with
  | nil => exact extends_nil t
  | cons call calls ih => exact (extends_perform t call).trans (ih (t.perform call))

theorem extends_after (calls : List Call) : empty.Extends calls (after calls) :=
  extends_foldl empty calls

theorem isBase_empty : empty.isBase name = false := rfl

theorem tagsOf_empty : empty.tagsOf name = [name] := rfl

theorem aliasesOf_empty : empty.aliasesOf name = [] := rfl

theorem Extends.mem_tagsOf_iff (h : t.Extends calls t') :
    tag ∈ t'.tagsOf name ↔
      tag ∈ t.tagsOf name ∨ Derives calls name tag ∨ Aliases calls tag name := by
  rw [mem_tagsOf, mem_tagsOf, h.mem_listed_iff, h.mem_aliasesOf_iff]
  tauto

/-- The tables give the same answers about every name, where tags and aliases are sets. -/
structure Alike (t t' : TagTable) : Prop where
  isBase_eq : ∀ name, t.isBase name = t'.isBase name
  tagsOf_eq : ∀ name, Text.ascending (t.tagsOf name) = Text.ascending (t'.tagsOf name)
  hasTag_eq : ∀ name tag, t.oracle.hasTag name tag = t'.oracle.hasTag name tag
  aliasesOf_eq : ∀ name, Text.ascending (t.aliasesOf name) = Text.ascending (t'.aliasesOf name)

theorem hasTag_iff : t.oracle.hasTag name tag = true ↔ tag ∈ t.tagsOf name :=
  List.contains_iff_mem

/-- Histories of the same calls, in whatever order and however often, lead to the same answers. -/
theorem Extends.alike (h : t.Extends calls t') (h' : t.Extends calls' t'')
    (hcalls : ∀ call, call ∈ calls ↔ call ∈ calls') : t'.Alike t'' := by
  have haliases : ∀ name tag, tag ∈ t'.aliasesOf name ↔ tag ∈ t''.aliasesOf name := by
    intro name tag
    simp only [h.mem_aliasesOf_iff, h'.mem_aliasesOf_iff, Aliases, hcalls]
  have htags : ∀ name tag, tag ∈ t'.tagsOf name ↔ tag ∈ t''.tagsOf name := by
    intro name tag
    simp only [h.mem_tagsOf_iff, h'.mem_tagsOf_iff, Derives, Aliases, hcalls]
  refine ⟨fun name => ?_, fun name => ?_, fun name tag => ?_, fun name => ?_⟩
  · rw [Bool.eq_iff_iff, h.isBase_iff, h'.isBase_iff]
    simp only [Registers, hcalls]
  · exact Text.ascending_eq_iff.mpr (htags name)
  · rw [Bool.eq_iff_iff, hasTag_iff, hasTag_iff, htags]
  · exact Text.ascending_eq_iff.mpr (haliases name)

end answers

section seeding

variable {s : RuleSet} {name tag ancestor : String}

/-- The calls by which a rule set puts its aliases into a table. -/
def seeding (s : RuleSet) : List Call :=
  s.aliases.map fun a => .tagAlias a.tag a.members

theorem extends_seedTags (s : RuleSet) (t : TagTable) : t.Extends (seeding s) (s.seedTags t) := by
  have hcalls : s.seedTags t = (seeding s).foldl perform t := by
    rw [RuleSet.seedTags, seeding, List.foldl_map]
    rfl
  rw [hcalls]
  exact extends_foldl t (seeding s)

theorem not_registers_seeding : ¬ Registers (seeding s) name := by
  simp [Registers, seeding]

theorem not_derives_seeding : ¬ Derives (seeding s) name ancestor := by
  simp [Derives, seeding]

theorem aliases_seeding :
    Aliases (seeding s) tag name ↔ ∃ a ∈ s.aliases, a.tag = tag ∧ name ∈ a.members := by
  simp only [Aliases, seeding, List.mem_map, Call.tagAlias.injEq]
  constructor
  · rintro ⟨members, ⟨a, ha, rfl, rfl⟩, hname⟩
    exact ⟨a, ha, rfl, hname⟩
  · rintro ⟨a, ha, rfl, hname⟩
    exact ⟨a.members, ⟨a, ha, rfl, rfl⟩, hname⟩

end seeding

/-- A table answers for the calls that were made, whatever their order and however often each was
made. Seeding it from a rule set adds the aliases of the set to the tags of their members, changes
nothing else, and changes nothing at all when it is done again. -/
theorem answers_are_of_the_history :
    (∀ (calls : List Call) (name : String),
      ((after calls).isBase name = true ↔
        ∃ ancestors, .ingredient name ancestors ∈ calls) ∧
      (∀ tag, tag ∈ (after calls).tagsOf name ↔
        tag = name ∨ (∃ ancestors, .ingredient name ancestors ∈ calls ∧ tag ∈ ancestors) ∨
          ∃ members, .tagAlias tag members ∈ calls ∧ name ∈ members) ∧
      (∀ tag, (after calls).oracle.hasTag name tag = true ↔ tag ∈ (after calls).tagsOf name) ∧
      ∀ tag, tag ∈ (after calls).aliasesOf name ↔
        ∃ members, .tagAlias tag members ∈ calls ∧ name ∈ members) ∧
    (∀ calls calls' : List Call, (∀ call, call ∈ calls ↔ call ∈ calls') →
      (after calls).Alike (after calls')) ∧
    ∀ (s : RuleSet) (t : TagTable),
      (∀ name, (s.seedTags t).isBase name = t.isBase name ∧
        (∀ tag, tag ∈ (s.seedTags t).tagsOf name ↔
          tag ∈ t.tagsOf name ∨ ∃ a ∈ s.aliases, a.tag = tag ∧ name ∈ a.members) ∧
        ∀ tag, tag ∈ (s.seedTags t).aliasesOf name ↔
          tag ∈ t.aliasesOf name ∨ ∃ a ∈ s.aliases, a.tag = tag ∧ name ∈ a.members) ∧
      (s.seedTags (s.seedTags t)).Alike (s.seedTags t) := by
  refine ⟨fun calls name => ?_, fun calls calls' hcalls => ?_, fun s t => ⟨fun name => ?_, ?_⟩⟩
  · have h := extends_after calls
    refine ⟨?_, fun tag => ?_, fun tag => hasTag_iff, fun tag => ?_⟩
    · rw [h.isBase_iff, isBase_empty, or_iff_right Bool.false_ne_true, Registers]
    · rw [h.mem_tagsOf_iff, tagsOf_empty, List.mem_singleton, Derives, Aliases]
    · rw [h.mem_aliasesOf_iff, aliasesOf_empty, or_iff_right List.not_mem_nil, Aliases]
  · exact (extends_after calls).alike (extends_after calls') hcalls
  · have h := extends_seedTags s t
    refine ⟨?_, fun tag => ?_, fun tag => ?_⟩
    · rw [Bool.eq_iff_iff, h.isBase_iff, or_iff_left not_registers_seeding]
    · rw [h.mem_tagsOf_iff, or_iff_right not_derives_seeding, aliases_seeding]
    · rw [h.mem_aliasesOf_iff, aliases_seeding]
  · have h := extends_seedTags s t
    exact (h.trans (extends_seedTags s (s.seedTags t))).alike h (by simp)

/-- An onion is registered twice, and an alias has the name of one of its ancestors. -/
def pantry : List Call :=
  [.ingredient "Onion" ["Vegetable"], .tagAlias "Vegetable" ["Onion", "pickled"],
    .ingredient "Onion" ["Food"], .tagAlias "salty" ["pickled"]]

/-- The calls of `pantry` in another order, two of them twice. -/
def restockedPantry : List Call :=
  [.tagAlias "salty" ["pickled"], .ingredient "Onion" ["Food"],
    .tagAlias "Vegetable" ["Onion", "pickled"], .ingredient "Onion" ["Food"],
    .ingredient "Onion" ["Vegetable"], .tagAlias "salty" ["pickled"]]

/-- The two tables are different and give the same answers. -/
theorem answers_are_of_the_history_pantry :
    (∀ call, call ∈ pantry ↔ call ∈ restockedPantry) ∧ after pantry ≠ after restockedPantry ∧
      (after pantry).Alike (after restockedPantry) ∧
      (after restockedPantry).oracle.hasTag "Onion" "Food" = true ∧
      (after restockedPantry).oracle.hasTag "pickled" "Food" = false := by
  obtain ⟨hanswers, hcalls, -⟩ := answers_are_of_the_history
  have hthere : ∀ call ∈ pantry, call ∈ restockedPantry := by decide
  have hback : ∀ call ∈ restockedPantry, call ∈ pantry := by decide
  have hsame : ∀ call, call ∈ pantry ↔ call ∈ restockedPantry :=
    fun call => ⟨hthere call, hback call⟩
  have halike := hcalls pantry restockedPantry hsame
  refine ⟨hsame, by decide, halike, ?_, ?_⟩
  · rw [← halike.hasTag_eq, (hanswers _ _).2.2.1, (hanswers _ _).2.1]
    exact .inr (.inl ⟨["Food"], by decide, by decide⟩)
  · rw [← halike.hasTag_eq]
    decide

end Simmer.TagTable
