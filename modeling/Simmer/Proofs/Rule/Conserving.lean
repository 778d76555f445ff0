import Simmer.Proofs.Mixture.Multiset
import Simmer.Proofs.Rule.Emptying
import Simmer.Proofs.Rule.Names

/-!
Rules that conserve tokens. A placement shares a component out between the tokens of the body
and what is left over, and a collector without a qualifier keeps all that is left over. So a
rule whose template has such a collector and the tokens of the body, each as often as the body
has it, puts the tokens of a component in another order and does nothing else. A body behind
`&&` that ends in a base takes the end of the component in a row; the template that puts the
collector in front of this body is the component again.
-/
namespace Simmer

section lists

variable {α β γ : Type} {f : α → β} {g : α → γ} {xs ys : List α}

/-- Lists with the same images have the same images under a map that is determined by them. -/
theorem map_eq_map_of_determined (h : xs.map f = ys.map f)
    (hg : ∀ x ∈ xs, ∀ y ∈ ys, f x = f y → g x = g y) : xs.map g = ys.map g := by
  induction xs generalizing ys with
  | nil =>
    obtain rfl := List.map_eq_nil_iff.mp h.symm
    rfl
  | cons x xs ih =>
    obtain ⟨y, zs, rfl, hy, hzs⟩ := List.map_eq_cons_iff.mp h.symm
    rw [List.map_cons, List.map_cons, hg x List.mem_cons_self y List.mem_cons_self hy.symm]
    congr 1
    exact ih hzs.symm fun x' hx' y' hy' =>
      hg x' (List.mem_cons_of_mem _ hx') y' (List.mem_cons_of_mem _ hy')

theorem perm_map_of_determined (h : (xs.map f).Perm (ys.map f))
    (hg : ∀ x ∈ xs, ∀ y ∈ ys, f x = f y → g x = g y) : (xs.map g).Perm (ys.map g) := by
  obtain ⟨zs, hzs, hperm⟩ : ∃ zs : List α, xs.map f = zs.map f ∧ zs.Perm ys :=
    (congrFun₂ (List.eq_map_comp_perm f) (xs.map f) ys).mpr h
  rw [map_eq_map_of_determined hzs fun x hx z hz => hg x hx z (hperm.mem_iff.mp hz)]
  exact hperm.map g

end lists

/-- Only at the end of a component is a constant a base. -/
theorem Category.ofConstant_eq_base_iff {oracle : Oracle} {name : String} {last : Bool} :
    ofConstant oracle name last = .ingredientBase ↔
      oracle.isBase name = true ∧ last = true := by
  cases last <;> cases h : oracle.isBase name <;> simp [ofConstant, ofIngredient, h]

namespace Token

theorem category_of_base {oracle : Oracle} {t : Token}
    (h : t.class? = some .ingredient ∨ t.class? = none ∧ oracle.isBase t.name = true) :
    t.category oracle true = .ingredientBase := by
  cases t with
  | constant name =>
    obtain ⟨-, hbase⟩ := h.resolve_left nofun
    exact Category.ofConstant_eq_base_iff.mpr ⟨hbase, rfl⟩
  | var cls digits qualifier =>
    obtain rfl := Option.some.inj (h.resolve_right fun hconstant => nomatch hconstant.1)
    rfl

/-- What tokens that were read stand for is a matter of their names. -/
theorem resolve_congr {word word' : String} {t u : Token} (ht : parse word = .ok t)
    (hu : parse word' = .ok u) (hname : t.name = u.name) (b : Bindings) :
    t.resolve b = u.resolve b := by
  cases t with
  | constant name =>
    cases u with
    | constant name' => exact congrArg (fun n => Except.ok [n]) hname
    | var cls digits qualifier =>
      exact absurd ⟨word', _, hu, rfl, hname.symm⟩ (not_namesVariable_of_parse ht)
  | var cls digits qualifier =>
    cases u with
    | constant name' =>
      exact absurd ⟨word, _, ht, rfl, hname⟩ (not_namesVariable_of_parse hu)
    | var cls' digits' qualifier' =>
      rw [resolve, resolve, isCollector_eq_of_name_eq rfl rfl hname, hname]
      rfl

end Token

namespace Clause

/-- The tokens of a clause, its collectors included. -/
def tokens (c : Clause) : List Token :=
  c.collectors.map Collector.token ++ c.body

theorem WellFormed.parse_text_of_mem_tokens {c : Clause} (h : c.WellFormed) :
    ∀ t ∈ c.tokens, Token.parse t.text = .ok t := by
  intro t ht
  rcases List.mem_append.mp ht with hcollector | hbody
  · obtain ⟨o, ho, rfl⟩ := List.mem_map.mp hcollector
    exact (h.collectors o ho).parse_text
  · exact (h.body t hbody).1.parse_text

variable {oracle : Oracle} {c : Clause} {component : Component} {ps : List Nat} {b : Bindings}

/-- The bindings of a match resolve a token of the body to the token on which it is placed. -/
theorem resolve_of_placed (hps : c.Places oracle component ps) (hc : c.Separate)
    (hb : b.entries = c.yield oracle component ps) {k i : Nat} {token : Token} {constant : String}
    (htoken : c.body[k]? = some token) (hi : ps[k]? = some i)
    (hconstant : component.tokens[i]? = some constant) : token.resolve b = .ok [constant] := by
  obtain ⟨-, hadmits⟩ := hps.fits k token i constant htoken hi hconstant
  cases token with
  | constant name => exact congrArg (fun n => Except.ok [n]) hadmits
  | var cls digits qualifier =>
    have hlanded : ((Token.var cls digits qualifier).name, Binding.single constant) ∈
        c.landings component ps := by
      refine List.mem_flatMap.mpr ⟨(.var cls digits qualifier, i), ?_, ?_⟩
      · exact List.mem_of_getElem? (List.getElem?_zip_eq_some.mpr ⟨htoken, hi⟩)
      · simp [Token.isVariable, hconstant]
    have hbound : b.single? (Token.var cls digits qualifier).name = some constant := by
      rw [Bindings.single?_eq_some_iff, hb, yield, List.mem_append, List.mem_eraseDups]
      exact Or.inl hlanded
    rw [Token.resolve, hc.body_free _ (List.mem_of_getElem? htoken), hbound]
    rfl

theorem map_resolve_body (hps : c.Places oracle component ps) (hc : c.Separate)
    (hb : b.entries = c.yield oracle component ps) :
    c.body.map (Token.resolve b) = ps.map fun i => .ok [component.tokens.getD i ""] := by
  apply List.ext_getElem (by simp [hps.length_eq])
  intro k hbody hplaced
  rw [List.length_map] at hbody hplaced
  have hlt := hps.in_range _ (List.getElem_mem hplaced)
  rw [List.getElem_map, List.getElem_map, List.getD_eq_getElem?_getD,
    List.getElem?_eq_getElem hlt, Option.getD_some]
  exact resolve_of_placed hps hc hb (List.getElem?_eq_getElem hbody)
    (List.getElem?_eq_getElem hplaced) (List.getElem?_eq_getElem hlt)

/-- A collector without a qualifier stands for all that is left over. -/
theorem resolve_collector (hb : b.entries = c.yield oracle component ps) {o : Collector}
    (ho : o ∈ c.collectors) (hfree : o.qualifier = none) :
    o.token.resolve b = .ok (component.without ps) := by
  have hall : (component.without ps).filter (Slot.allows oracle o.qualifier) =
      component.without ps := by
    rw [hfree]
    exact List.filter_eq_self.mpr fun _ _ => rfl
  have hkept : b.collected? o.name = some (component.without ps) :=
    (collected?_eq_some_iff hb).mpr ⟨o, ho, rfl, hall⟩
  rw [Token.resolve, if_pos (show o.token.isCollector = true from rfl),
    show o.token.name = o.name from rfl, hkept]

/-- A collector without a qualifier and the body together resolve to what is left over and
what is placed. -/
theorem map_resolve_cons (hps : c.Places oracle component ps) (hc : c.Separate)
    (hb : b.entries = c.yield oracle component ps) {o : Collector} (ho : o ∈ c.collectors)
    (hfree : o.qualifier = none) :
    (o.token :: c.body).map (Token.resolve b) =
      (component.without ps :: ps.map fun i => [component.tokens.getD i ""]).map .ok := by
  rw [List.map_cons, resolve_collector hb ho hfree, map_resolve_body hps hc hb, List.map_cons,
    List.map_map]
  rfl

/-- A base at the end of the body is placed on the base of the component. -/
theorem Places.exists_last (hps : c.Places oracle component ps) {last : Token}
    (hlast : c.body.getLast? = some last) (hbase : last.category oracle true = .ingredientBase) :
    ∃ i constant, ps.getLast? = some i ∧ i + 1 = component.tokens.length ∧
      component.tokens[i]? = some constant ∧ oracle.isBase constant = true := by
  obtain ⟨i, hi⟩ : ∃ i, ps.getLast? = some i := by
    rw [List.getLast?_eq_getElem?] at hlast ⊢
    have hlt := (List.getElem?_eq_some_iff.mp hlast).1
    rw [← hps.length_eq] at hlt
    exact ⟨_, List.getElem?_eq_getElem hlt⟩
  have hconstant := List.getElem?_eq_getElem (hps.in_range i (List.mem_of_getLast? hi))
  have hbody : (c.body.length - 1 + 1 == c.body.length) = true := by
    rw [beq_iff_eq]
    exact Nat.succ_pred_eq_of_pos (List.length_pos_of_mem (List.mem_of_getLast? hlast))
  obtain ⟨hcategory, -⟩ := hps.fits (c.body.length - 1) last i _
    (List.getLast?_eq_getElem?.symm.trans hlast)
    (hps.length_eq ▸ List.getLast?_eq_getElem?.symm.trans hi) hconstant
  rw [hbody, hbase] at hcategory
  obtain ⟨hisbase, hend⟩ := Category.ofConstant_eq_base_iff.mp hcategory.symm
  exact ⟨i, _, hi, eq_of_beq hend, hconstant, hisbase⟩

/-- A body that has to be found in a row and ends in a base takes the end of the component. -/
theorem Places.exists_cut (hps : c.Places oracle component ps)
    (hrow : c.strictness = .contiguous) {last : Token} (hlast : c.body.getLast? = some last)
    (hbase : last.category oracle true = .ingredientBase) :
    ∃ front back, component.tokens = front ++ back ∧
      ps = List.range' front.length back.length := by
  obtain ⟨i, -, hi, hend, -, -⟩ := hps.exists_last hlast hbase
  exact Selection.exists_cut_of_run (hps.consecutive hrow) hi hend

end Clause

namespace ComponentRule

variable {oracle : Oracle} {r : ComponentRule} {lhs rhs : String} {c out : Component}

/-- What a rule makes of a component comes from a placement of the body. -/
theorem exists_placed (hlhs : Pattern.parse lhs = .ok r.lhs)
    (hout : (r.tryApply oracle c).outcome = .ok (some out)) :
    ∃ ps b, r.lhs.clause.Places oracle c ps ∧ b.entries = r.lhs.clause.yield oracle c ps ∧
      r.rhs.instantiate b = .ok out := by
  obtain ⟨b, hmatch, hinstance⟩ := tryApply_eq_some_iff.mp hout
  obtain ⟨-, ps, hleast, hentries⟩ := ((Pattern.match?_of_parse hlhs oracle c).2 b).mp hmatch
  exact ⟨ps, b, hleast.holds, hentries, hinstance⟩

/-- In a rule that was read, tokens of one name on both sides stand for the same constants. -/
theorem resolve_determined (hlhs : Pattern.parse lhs = .ok r.lhs)
    (hrhs : Template.parse rhs = .ok r.rhs) (b : Bindings) :
    ∀ t ∈ r.rhs.tokens, ∀ u ∈ r.lhs.clause.tokens, t.name = u.name →
      t.resolve b = u.resolve b := by
  obtain ⟨hwell, -⟩ := Pattern.parse_eq_ok_iff.mp hlhs
  intro t ht u hu hname
  obtain ⟨word, -, hword⟩ := Outcome.exists_of_mem_mapM (Template.parse_eq_ok_iff.mp hrhs).1 ht
  exact Token.resolve_congr hword (hwell.clause.parse_text_of_mem_tokens u hu) hname b

/-- A rule whose template names an unqualified collector and the tokens of the body, each as
often as the body does, permutes the tokens of whatever it applies to. Behind `&&`, with a base
at the end and the template in the order of the left side, it gives back what it is given. -/
theorem tokens_conserved {o : Collector} (hlhs : Pattern.parse lhs = .ok r.lhs)
    (hrhs : Template.parse rhs = .ok r.rhs) (ho : o ∈ r.lhs.clause.collectors)
    (hfree : o.qualifier = none)
    (hnames : (r.rhs.tokens.map Token.name).Perm (o.name :: r.lhs.clause.body.map Token.name))
    (hout : (r.tryApply oracle c).outcome = .ok (some out)) :
    out.tokens.Perm c.tokens ∧
      (r.lhs.clause.strictness = .contiguous →
        (∃ last, r.lhs.clause.body.getLast? = some last ∧
          (last.class? = some .ingredient ∨
            last.class? = none ∧ oracle.isBase last.name = true)) →
        r.rhs.tokens.map Token.name = o.name :: r.lhs.clause.body.map Token.name → out = c) := by
  obtain ⟨ps, b, hps, hb, hinstance⟩ := exists_placed hlhs hout
  obtain ⟨parts, hparts, hflat⟩ := Template.instantiate_eq_ok_iff.mp hinstance
  have hok : Function.Injective (Except.ok : List String → Except Fault (List String)) :=
    fun _ _ h => Except.ok.inj h
  have hleft : o.token :: r.lhs.clause.body ⊆ r.lhs.clause.tokens :=
    List.cons_subset.mpr
      ⟨List.mem_append_left _ (List.mem_map_of_mem ho), List.subset_append_right _ _⟩
  have hdetermined : ∀ t ∈ r.rhs.tokens, ∀ u ∈ o.token :: r.lhs.clause.body,
      t.name = u.name → t.resolve b = u.resolve b :=
    fun t ht u hu => resolve_determined hlhs hrhs b t ht u (hleft hu)
  have hsides := Clause.map_resolve_cons hps (Pattern.separate_of_parse hlhs).clause hb ho hfree
  have hflatten : (c.without ps :: ps.map fun i => [c.tokens.getD i ""]).flatten =
      c.without ps ++ ps.map fun i => c.tokens.getD i "" := by
    rw [List.flatten_cons, ← List.flatMap_def, ← List.map_eq_flatMap]
  constructor
  · have hnames' : (r.rhs.tokens.map Token.name).Perm
        ((o.token :: r.lhs.clause.body).map Token.name) := hnames
    have hperm := perm_map_of_determined hnames' hdetermined
    rw [hparts, hsides, List.map_perm_map_iff hok] at hperm
    have hshared := hperm.flatten
    rw [hflat, hflatten] at hshared
    exact hshared.trans (List.perm_append_comm.trans
      (Selection.perm_taken_others "" hps.injective hps.in_range))
  · rintro hrow ⟨last, hlast, hkind⟩ hinorder
    obtain ⟨front, back, hcut, rfl⟩ := hps.exists_cut hrow hlast (last.category_of_base hkind)
    have heq := map_eq_map_of_determined hinorder hdetermined
    rw [hparts, hsides] at heq
    apply Component.tokens_injective
    rw [← hflat, hok.list_map heq, hflatten, Component.without_eq_others, hcut,
      Selection.others_run, Selection.map_getD_run]

/-- Puts a modifier that is there twice around the other modifiers. -/
def surround : ComponentRule where
  lhs := .plain ⟨[⟨"1", none⟩], .loose,
    [.var .modifier "1" none, .var .modifier "1" none, .var .ingredient "1" none]⟩
  rhs := ⟨[.var .modifier "1" none, .var .collector "1" none, .var .modifier "1" none,
    .var .ingredient "1" none]⟩
  closed := by decide

/-- Asks for a modifier twice in a row in front of an onion, and changes nothing. -/
def salute : ComponentRule where
  lhs := .plain ⟨[⟨"1", none⟩], .contiguous,
    [.var .modifier "1" none, .var .modifier "1" none, .constant "Onion"]⟩
  rhs := ⟨[.var .collector "1" none, .var .modifier "1" none, .var .modifier "1" none,
    .constant "Onion"]⟩
  closed := by decide

/-- The first rule moves the fresh token between the hot ones, and the second leaves it. -/
theorem tokens_conserved_hot :
    (∃ out, (surround.tryApply (.plain ["Onion"]) ⟨["fresh", "hot", "hot", "Onion"]⟩).outcome =
        .ok (some out) ∧ out.tokens.Perm ["fresh", "hot", "hot", "Onion"]) ∧
      ∃ out, (salute.tryApply (.plain ["Onion"]) ⟨["fresh", "hot", "hot", "Onion"]⟩).outcome =
        .ok (some out) ∧ out = ⟨["fresh", "hot", "hot", "Onion"]⟩ := by
  have hsurround : (surround.tryApply (.plain ["Onion"])
      ⟨["fresh", "hot", "hot", "Onion"]⟩).outcome =
        .ok (some ⟨["hot", "fresh", "hot", "Onion"]⟩) := rfl
  have hsalute : (salute.tryApply (.plain ["Onion"])
      ⟨["fresh", "hot", "hot", "Onion"]⟩).outcome =
        .ok (some ⟨["fresh", "hot", "hot", "Onion"]⟩) := rfl
  have hlhs : Pattern.parse "o1 m1 m1 i1" = .ok surround.lhs := rfl
  have hrhs : Template.parse "m1 o1 m1 i1" = .ok surround.rhs := rfl
  have hlhs' : Pattern.parse "o1 && m1 m1 Onion" = .ok salute.lhs := rfl
  have hrhs' : Template.parse "o1 m1 m1 Onion" = .ok salute.rhs := rfl
  obtain ⟨hperm, -⟩ := tokens_conserved (o := ⟨"1", none⟩) hlhs hrhs List.mem_cons_self rfl
    (.swap _ _ _) hsurround
  obtain ⟨-, hkept⟩ := tokens_conserved (o := ⟨"1", none⟩) hlhs' hrhs' List.mem_cons_self rfl
    (.refl _) hsalute
  exact ⟨⟨_, hsurround, hperm⟩, _, hsalute, hkept rfl ⟨.constant "Onion", rfl, .inr ⟨rfl, rfl⟩⟩ rfl⟩

end ComponentRule

end Simmer
