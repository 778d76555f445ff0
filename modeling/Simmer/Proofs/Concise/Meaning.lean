import Simmer.Proofs.Concise.Plain
import Simmer.Proofs.Concise.Written
import Simmer.Proofs.Rule.Conserving
import Simmer.Proofs.Selection.Embedding

/-!
What concise rules of constants mean. The base variable can only be placed on the base of a
component, so placing the clause of such a rule is embedding its parts among the modifiers, and
the least placement is the least embedding. The collector keeps the modifiers that are not
used. So a rule in any order sees the modifiers and its own parts as multisets, and takes the
first occurrences away; a rule in order takes its leftmost occurrence as a sublist.
-/
namespace Simmer

open Selection (Embeds Least Leftmost others)

namespace ConciseRule

variable {oracle : Oracle} {r : ConciseRule} {ms : List String} {b : String} {ps qs : List Nat}

theorem separate_clause (r : ConciseRule) : r.clause.Separate where
  collectors_distinct := by simp [clause]
  body_free t ht := by
    rw [clause, List.mem_append] at ht
    rcases ht with hpart | hbase
    · obtain ⟨part, -, rfl⟩ := List.mem_map.mp hpart
      rfl
    · obtain rfl := List.mem_singleton.mp hbase
      rfl

/-- Of the body, the base variable alone is bound, and to the base. -/
theorem landings_clause (hlength : qs.length = r.parts.length) :
    r.clause.landings ⟨ms ++ [b]⟩ (qs ++ [ms.length]) = [("i1", .single b)] := by
  have hconstants : ((r.parts.map Token.constant).zip qs).flatMap (fun x =>
      if x.1.isVariable then
        ((⟨ms ++ [b]⟩ : Component).tokens[x.2]?).toList.map fun constant =>
          (x.1.name, Binding.single constant)
      else []) = [] := by
    rw [List.flatMap_eq_nil_iff]
    rintro ⟨t, i⟩ hmem
    obtain ⟨part, -, rfl⟩ := List.mem_map.mp (List.of_mem_zip hmem).1
    rfl
  have hsame : (r.parts.map Token.constant).length = qs.length := by
    rw [List.length_map, hlength]
  rw [Clause.landings, clause, List.zip_append hsame, List.flatMap_append, hconstants]
  simp [Token.isVariable, Token.name, VariableClass.letter]

theorem getElem?_body_of_lt {k : Nat} (hk : k < r.parts.length) :
    r.clause.body[k]? = some (.constant r.parts[k]) := by
  rw [clause, List.getElem?_append_left (by simpa using hk), List.getElem?_map,
    List.getElem?_eq_getElem hk, Option.map_some]

theorem getElem?_body_length (r : ConciseRule) :
    r.clause.body[r.parts.length]? = some (.var .ingredient "1" none) := by
  rw [clause, List.getElem?_append_right (by simp)]
  simp

theorem length_body (r : ConciseRule) : r.clause.body.length = r.parts.length + 1 := by
  simp [clause]

/-- The base variable is placed on the base. -/
theorem exists_eq_of_places (h : r.clause.Places oracle ⟨ms ++ [b]⟩ ps) :
    oracle.isBase b = true ∧ ∃ qs, ps = qs ++ [ms.length] := by
  have hbody : r.clause.body.getLast? = some (.var .ingredient "1" none) := by simp [clause]
  obtain ⟨i, x, hi, hend, hx, hbase⟩ := h.exists_last hbody rfl
  obtain rfl : i = ms.length := by simpa using hend
  rw [List.getElem?_concat_length] at hx
  obtain rfl := Option.some.inj hx
  exact ⟨hbase, ps.dropLast, (List.dropLast_append_getLast? _ hi).symm⟩

theorem embeds_of_places (h : r.clause.Places oracle ⟨ms ++ [b]⟩ (qs ++ [ms.length])) :
    Embeds r.ordered r.parts ms qs := by
  have hlength : qs.length = r.parts.length := by
    simpa using h.length_eq.trans (length_body r)
  obtain ⟨hnodup, -, hapart⟩ := List.nodup_append.mp h.injective
  refine ⟨List.forall₂_iff_get.mpr ⟨hlength, fun k hk hk' => ?_⟩, hnodup, fun hordered => ?_⟩
  · -- a part cannot stand on the base, which the base variable has taken
    have hmem : qs[k] ∈ qs := List.getElem_mem hk
    have hne : qs[k] ≠ ms.length := hapart _ hmem _ (List.mem_singleton_self _)
    have hle : qs[k] < ms.length + 1 := by
      simpa using h.in_range qs[k] (List.mem_append_left _ hmem)
    have hlt : qs[k] < ms.length := by omega
    have hstands : (ms ++ [b])[qs[k]]? = some ms[qs[k]] := by
      rw [List.getElem?_append_left hlt, List.getElem?_eq_getElem hlt]
    obtain ⟨-, hadmits⟩ := h.fits k _ qs[k] _ (getElem?_body_of_lt hk')
      (by rw [List.getElem?_append_left hk, List.getElem?_eq_getElem hk]) hstands
    rw [List.get_eq_getElem, List.get_eq_getElem, List.getElem?_eq_getElem hlt]
    exact congrArg some hadmits.symm
  · have hstrict : r.clause.strictness = .ordered := if_pos hordered
    exact (List.pairwise_append.mp (h.increasing hstrict)).1

/-- Whether a token stands in front of the base decides its category in the same way in a body
and in a component. -/
theorem fits_of_embeds (hbase : oracle.isBase b = true) (h : Embeds r.ordered r.parts ms qs) :
    r.clause.Fits oracle ⟨ms ++ [b]⟩ (qs ++ [ms.length]) := by
  intro k token i constant htoken hi hconstant
  have hlength := h.standing.length_eq
  have hk : k < r.parts.length + 1 := length_body r ▸ (List.getElem?_eq_some_iff.mp htoken).1
  rw [length_body]
  -- a part in front of the base, or the base variable
  rcases Nat.lt_or_eq_of_le (Nat.le_of_lt_succ hk) with hpart | rfl
  · rw [getElem?_body_of_lt hpart] at htoken
    obtain rfl := Option.some.inj htoken
    rw [List.getElem?_append_left (hlength ▸ hpart)] at hi
    have hlt : i < ms.length := h.in_range i (List.mem_of_getElem? hi)
    have hfront : (k + 1 == r.parts.length + 1) = false := by simpa using Nat.ne_of_lt hpart
    have hmodifier : (i + 1 == (ms ++ [b]).length) = false := by simpa using Nat.ne_of_lt hlt
    have hstands : ms[i]? = some r.parts[k] := by
      obtain ⟨hk', rfl⟩ := List.getElem?_eq_some_iff.mp hi
      exact (List.forall₂_iff_get.mp h.standing).2 k hk' hpart
    rw [List.getElem?_append_left hlt, hstands] at hconstant
    obtain rfl := Option.some.inj hconstant
    exact ⟨by rw [hfront, hmodifier]; rfl, rfl⟩
  · rw [getElem?_body_length] at htoken
    obtain rfl := Option.some.inj htoken
    rw [← hlength, List.getElem?_concat_length] at hi
    obtain rfl := Option.some.inj hi
    rw [List.getElem?_concat_length] at hconstant
    obtain rfl := Option.some.inj hconstant
    have hend : (ms.length + 1 == (ms ++ [b]).length) = true := by simp
    rw [beq_self_eq_true, hend, Category.ofConstant_eq_base_iff.mpr ⟨hbase, rfl⟩]
    exact ⟨rfl, trivial⟩

theorem places_of_embeds (hbase : oracle.isBase b = true)
    (h : Embeds r.ordered r.parts ms qs) :
    r.clause.Places oracle ⟨ms ++ [b]⟩ (qs ++ [ms.length]) where
  length_eq := by
    rw [List.length_append, h.standing.length_eq, length_body, List.length_singleton]
  injective := by
    refine List.nodup_append.mpr ⟨h.injective, List.nodup_singleton _, fun i hi j hj => ?_⟩
    obtain rfl := List.mem_singleton.mp hj
    exact Nat.ne_of_lt (h.in_range i hi)
  in_range := by
    intro i hi
    rw [List.length_append, List.length_singleton]
    rcases List.mem_append.mp hi with hi | hi
    · exact Nat.lt_succ_of_lt (h.in_range i hi)
    · obtain rfl := List.mem_singleton.mp hi
      exact Nat.lt_succ_self _
  fits := fits_of_embeds hbase h
  consistent := by
    rw [landings_clause h.standing.length_eq]
    intro name v w hv hw
    rw [List.mem_singleton, Prod.mk.injEq] at hv hw
    exact hv.2.trans hw.2.symm
  increasing := by
    intro hstrict
    cases hordered : r.ordered with
    | false => simp [clause, hordered] at hstrict
    | true =>
      refine List.pairwise_append.mpr
        ⟨h.increasing hordered, List.pairwise_singleton _ _, fun i hi j hj => ?_⟩
      obtain rfl := List.mem_singleton.mp hj
      exact h.in_range i hi
  consecutive := by
    intro hstrict
    cases hordered : r.ordered <;> simp [clause, hordered] at hstrict

/-- Placing the clause is embedding the parts among the modifiers, in front of a base. -/
theorem exists_places_iff :
    (∃ ps, r.clause.Places oracle ⟨ms ++ [b]⟩ ps) ↔
      oracle.isBase b = true ∧ ∃ qs, Embeds r.ordered r.parts ms qs := by
  constructor
  · rintro ⟨ps, hps⟩
    obtain ⟨hbase, qs, rfl⟩ := exists_eq_of_places hps
    exact ⟨hbase, qs, embeds_of_places hps⟩
  · rintro ⟨hbase, qs, hqs⟩
    exact ⟨_, places_of_embeds hbase hqs⟩

/-- The least placement is the least embedding, and the base behind it. -/
theorem exists_least_of_places (h : Least (r.clause.Places oracle ⟨ms ++ [b]⟩) ps) :
    ∃ qs, ps = qs ++ [ms.length] ∧ Least (Embeds r.ordered r.parts ms) qs := by
  obtain ⟨hbase, qs, rfl⟩ := exists_eq_of_places h.holds
  have hqs := embeds_of_places h.holds
  refine ⟨qs, rfl, hqs, fun qs' hqs' hlex => ?_⟩
  -- a lesser embedding would be a lesser placement with the base behind it
  have hlength : qs'.length = qs.length :=
    hqs'.standing.length_eq.trans hqs.standing.length_eq.symm
  exact h.earliest _ (places_of_embeds hbase hqs')
    (Selection.lex_append_right hlex hlength [ms.length])

/-- A plain rule matches where its parts can be embedded among the modifiers of a base. -/
theorem isSome_match?_iff :
    (r.plainRule.lhs.match? oracle ⟨ms ++ [b]⟩).isSome = true ↔
      oracle.isBase b = true ∧ ∃ qs, Embeds r.ordered r.parts ms qs := by
  rw [Pattern.isSome_match?_iff]
  exact exists_places_iff

/-- What a plain rule makes of a component: its result, the modifiers that the least embedding
leaves, and the base. -/
theorem exists_least_of_match (h : (r.plainRule.lhs.match? oracle ⟨ms ++ [b]⟩).isSome = true) :
    ∃ qs, Least (Embeds r.ordered r.parts ms) qs ∧
      (r.plainRule.tryApply oracle ⟨ms ++ [b]⟩).outcome =
        .ok (some ⟨r.result ++ others qs ms ++ [b]⟩) := by
  obtain ⟨bound, hbound⟩ := Option.isSome_iff_exists.mp h
  obtain ⟨ps, hleast, hentries⟩ :=
    (Clause.match?_eq_some_iff (separate_clause r)).mp (Pattern.match?_eq_some_iff.mp hbound).2
  obtain ⟨qs, rfl, hqs⟩ := exists_least_of_places hleast
  refine ⟨qs, hqs, ComponentRule.tryApply_eq_some_iff.mpr ⟨bound, hbound, ?_⟩⟩
  have hcollector : (Token.var .collector "1" none).resolve bound = .ok (others qs ms) := by
    have hall := Clause.resolve_collector (o := ⟨"1", none⟩) hentries List.mem_cons_self rfl
    rwa [Component.without_eq_others, Selection.others_concat] at hall
  have hbase : (Token.var .ingredient "1" none).resolve bound = .ok [b] :=
    Clause.resolve_of_placed hleast.holds (separate_clause r) hentries (getElem?_body_length r)
      (by rw [← hqs.holds.standing.length_eq, List.getElem?_concat_length])
      List.getElem?_concat_length
  have hresult : (r.result.map Token.constant).map (Token.resolve bound) =
      (r.result.map fun word => [word]).map .ok := by
    rw [List.map_map, List.map_map]
    rfl
  refine Template.instantiate_eq_ok_iff.mpr
    ⟨(r.result.map fun word => [word]) ++ [others qs ms, [b]], ?_, ?_⟩
  · have htokens : r.plainRule.rhs.tokens = r.result.map .constant ++
        [.var .collector "1" none, .var .ingredient "1" none] := rfl
    rw [htokens, List.map_append, List.map_append, hresult, List.map_cons, List.map_singleton,
      hcollector, hbase]
    rfl
  · rw [List.flatten_append, ← List.flatMap_def, ← List.map_eq_flatMap, List.map_id']
    simp

/-- A plain rule leaves the component without tokens alone. -/
theorem match?_of_empty (r : ConciseRule) (oracle : Oracle) :
    r.plainRule.lhs.match? oracle ⟨[]⟩ = none := by
  by_contra hmatch
  obtain ⟨bound, hbound⟩ := Option.ne_none_iff_exists'.mp hmatch
  have hle := Pattern.length_body_le hbound
  rw [List.length_nil] at hle
  exact absurd (length_body r ▸ hle : r.parts.length + 1 ≤ 0) (Nat.not_succ_le_zero _)

section loose

variable (hloose : r.ordered = false)
include hloose

/-- In any order, a plain rule asks for each constant as often as it is among the parts. -/
theorem isSome_match?_iff_count :
    (r.plainRule.lhs.match? oracle ⟨ms ++ [b]⟩).isSome = true ↔
      oracle.isBase b = true ∧ ∀ x, r.parts.count x ≤ ms.count x := by
  rw [isSome_match?_iff, hloose, Selection.exists_embeds_iff_count]

/-- It takes the first ones of each constant away. -/
theorem outcome_tryApply_diff
    (h : (r.plainRule.lhs.match? oracle ⟨ms ++ [b]⟩).isSome = true) :
    (r.plainRule.tryApply oracle ⟨ms ++ [b]⟩).outcome =
      .ok (some ⟨r.result ++ ms.diff r.parts ++ [b]⟩) := by
  obtain ⟨qs, hqs, hout⟩ := exists_least_of_match h
  rw [hloose] at hqs
  rw [hout, Selection.others_eq_diff hqs]

/-- So its effect is the same for parts in another order. -/
theorem outcome_tryApply_perm {parts : List String} (hperm : parts.Perm r.parts)
    (oracle : Oracle) (c : Component) :
    ({ r with parts := parts }.plainRule.tryApply oracle c).outcome =
      (r.plainRule.tryApply oracle c).outcome := by
  obtain ⟨tokens⟩ := c
  rcases List.eq_nil_or_concat tokens with rfl | ⟨ms, b, rfl⟩
  · rw [ComponentRule.tryApply_eq_none_iff.mpr (match?_of_empty _ oracle),
      ComponentRule.tryApply_eq_none_iff.mpr (match?_of_empty r oracle)]
  · rw [List.concat_eq_append]
    have hloose' : ({ r with parts := parts } : ConciseRule).ordered = false := hloose
    have hiff : ({ r with parts := parts }.plainRule.lhs.match? oracle ⟨ms ++ [b]⟩).isSome = true ↔
        (r.plainRule.lhs.match? oracle ⟨ms ++ [b]⟩).isSome = true := by
      rw [isSome_match?_iff_count hloose, isSome_match?_iff_count hloose']
      simp only [hperm.count_eq]
    by_cases hmatch : (r.plainRule.lhs.match? oracle ⟨ms ++ [b]⟩).isSome = true
    · rw [outcome_tryApply_diff hloose hmatch, outcome_tryApply_diff hloose' (hiff.mpr hmatch),
        hperm.diff_left]
    · have hnone := Option.not_isSome_iff_eq_none.mp hmatch
      have hnone' := Option.not_isSome_iff_eq_none.mp (mt hiff.mp hmatch)
      rw [ComponentRule.tryApply_eq_none_iff.mpr hnone,
        ComponentRule.tryApply_eq_none_iff.mpr hnone']

end loose

section ordered

variable (hordered : r.ordered = true)
include hordered

/-- In order, a plain rule asks for its parts as a sublist of the modifiers. -/
theorem isSome_match?_iff_sublist :
    (r.plainRule.lhs.match? oracle ⟨ms ++ [b]⟩).isSome = true ↔
      oracle.isBase b = true ∧ r.parts.Sublist ms := by
  rw [isSome_match?_iff, hordered, Selection.exists_embeds_iff_sublist]

/-- It takes the leftmost occurrence of them away. -/
theorem exists_leftmost_of_match
    (h : (r.plainRule.lhs.match? oracle ⟨ms ++ [b]⟩).isSome = true) :
    ∃ qs, Leftmost r.parts ms qs ∧
      (r.plainRule.tryApply oracle ⟨ms ++ [b]⟩).outcome =
        .ok (some ⟨r.result ++ others qs ms ++ [b]⟩) := by
  obtain ⟨qs, hqs, hout⟩ := exists_least_of_match h
  rw [hordered] at hqs
  exact ⟨qs, Selection.leftmost_of_least hqs, hout⟩

end ordered

/-- A plain rule stays one when its parts are put in another order. -/
theorem Plain.perm (h : r.Plain) {parts : List String} (hperm : parts.Perm r.parts) :
    Plain { r with parts := parts } where
  constants word hword := h.constants word ((hperm.append_right r.result).mem_iff.mp hword)
  no_mark part hpart := h.no_mark part (hperm.mem_iff.mp hpart)

theorem expand_perm (h : r.Plain) {rule : ComponentRule} (hrule : r.expand = .ok rule)
    {parts : List String} (hperm : parts.Perm r.parts) :
    expand { r with parts := parts } = .ok (plainRule { r with parts := parts }) := by
  obtain ⟨harrow, hjoin, -⟩ := (expand_eq_ok_iff_of_plain h).mp hrule
  refine (expand_eq_ok_iff_of_plain (h.perm hperm)).mpr ⟨fun word hword => ?_, ?_, rfl⟩
  · exact harrow word ((hperm.append_right r.result).mem_iff.mp hword)
  · exact fun hmem => hjoin (hperm.mem_iff.mp hmem)

/-- A line whose parts and result words are constants, none of the parts a marker or a veto
mark. Joined by `+`, it asks for a base with the parts among its modifiers, as often as they are
on the line, and puts the result in place of the first ones; the parts may be put on a line in
any other order. Joined by `+>`, it asks for the parts as a sublist of the modifiers and puts the
result in place of the leftmost one. -/
theorem meaning_of_constants {line : String} {rule : ComponentRule} (hr : parse line = .ok r)
    (hrule : r.expand = .ok rule)
    (hconstants : ∀ word ∈ r.parts ++ r.result, Token.parse word = .ok (.constant word))
    (hmarks : ∀ part ∈ r.parts, part ≠ "&" ∧ part ≠ "&&" ∧ part ≠ "!!") :
    (r.ordered = false →
      (∀ oracle ms b,
        ((rule.lhs.match? oracle ⟨ms ++ [b]⟩).isSome = true ↔
          oracle.isBase b = true ∧ ∀ x, r.parts.count x ≤ ms.count x) ∧
        ((rule.lhs.match? oracle ⟨ms ++ [b]⟩).isSome = true →
          (rule.tryApply oracle ⟨ms ++ [b]⟩).outcome =
            .ok (some ⟨r.result ++ ms.diff r.parts ++ [b]⟩))) ∧
      ∀ parts, parts.Perm r.parts → ∃ line' rule',
        parse line' = .ok { r with parts := parts } ∧
          expand { r with parts := parts } = .ok rule' ∧
            ∀ oracle c, (rule'.tryApply oracle c).outcome = (rule.tryApply oracle c).outcome) ∧
    (r.ordered = true → ∀ oracle ms b,
      ((rule.lhs.match? oracle ⟨ms ++ [b]⟩).isSome = true ↔
        oracle.isBase b = true ∧ r.parts.Sublist ms) ∧
      ((rule.lhs.match? oracle ⟨ms ++ [b]⟩).isSome = true → ∃ qs, Leftmost r.parts ms qs ∧
        (rule.tryApply oracle ⟨ms ++ [b]⟩).outcome =
          .ok (some ⟨r.result ++ others qs ms ++ [b]⟩))) := by
  have hplain : r.Plain := ⟨hconstants, hmarks⟩
  obtain ⟨-, -, rfl⟩ := (expand_eq_ok_iff_of_plain hplain).mp hrule
  constructor
  · intro hloose
    refine ⟨fun oracle ms b => ⟨isSome_match?_iff_count hloose, outcome_tryApply_diff hloose⟩, ?_⟩
    intro parts hperm
    have hclean : Clean { r with parts := parts } := (clean_of_parse hr).perm hperm
    exact ⟨_, _, parse_written hclean hloose, expand_perm hplain hrule hperm,
      outcome_tryApply_perm hloose hperm⟩
  · intro hordered oracle ms b
    exact ⟨isSome_match?_iff_sublist hordered, exists_leftmost_of_match hordered⟩

def soaking : ConciseRule where
  ordered := false
  parts := ["wet", "salty", "wet"]
  result := ["soggy"]

def curing : ConciseRule where
  ordered := true
  parts := ["wet", "salty"]
  result := ["cured"]

/-- One line takes two wet tokens and a salty one, wherever they are; the other takes the first
wet token and the first salty one behind it. -/
theorem meaning_of_constants_wet :
    (∃ rule, parse "wet + salty + wet = soggy" = .ok soaking ∧ soaking.expand = .ok rule ∧
      (rule.tryApply (.plain ["Onion"]) ⟨["salty", "wet", "cold", "wet", "wet", "Onion"]⟩).outcome =
        .ok (some ⟨["soggy", "cold", "wet", "Onion"]⟩)) ∧
      ∃ rule, parse "wet +> salty = cured" = .ok curing ∧ curing.expand = .ok rule ∧
        ∃ qs, Leftmost ["wet", "salty"] ["salty", "wet", "cold", "wet", "salty"] qs ∧
          (rule.tryApply (.plain ["Onion"])
            ⟨["salty", "wet", "cold", "wet", "salty", "Onion"]⟩).outcome =
              .ok (some ⟨"cured" :: others qs ["salty", "wet", "cold", "wet", "salty"] ++
                ["Onion"]⟩) := by
  have hsoaking : parse "wet + salty + wet = soggy" = .ok soaking := rfl
  have hcuring : parse "wet +> salty = cured" = .ok curing := rfl
  have hplain : soaking.Plain := ⟨by decide, by decide⟩
  have hplain' : curing.Plain := ⟨by decide, by decide⟩
  have harrow : ∀ word ∈ soaking.parts ++ soaking.result, ArrowFree word.toList := by
    unfold ArrowFree
    decide
  have harrow' : ∀ word ∈ curing.parts ++ curing.result, ArrowFree word.toList := by
    unfold ArrowFree
    decide
  have hrule := (expand_eq_ok_iff_of_plain hplain).mpr ⟨harrow, by decide, rfl⟩
  have hrule' := (expand_eq_ok_iff_of_plain hplain').mpr ⟨harrow', by decide, rfl⟩
  obtain ⟨hloose, -⟩ := meaning_of_constants hsoaking hrule hplain.constants hplain.no_mark
  obtain ⟨-, hordered⟩ := meaning_of_constants hcuring hrule' hplain'.constants hplain'.no_mark
  obtain ⟨hmatch, hout⟩ := (hloose rfl).1 (.plain ["Onion"]) ["salty", "wet", "cold", "wet", "wet"]
    "Onion"
  obtain ⟨hmatch', hout'⟩ := hordered rfl (.plain ["Onion"])
    ["salty", "wet", "cold", "wet", "salty"] "Onion"
  have hcount : soaking.parts.Subperm ["salty", "wet", "cold", "wet", "wet"] := by decide
  exact ⟨⟨_, hsoaking, hrule, hout (hmatch.mpr ⟨rfl, List.subperm_iff_count.mp hcount⟩)⟩,
    _, hcuring, hrule', hout' (hmatch'.mpr ⟨rfl, by decide⟩)⟩

end ConciseRule

end Simmer
