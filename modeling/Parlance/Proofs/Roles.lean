import Parlance.Proofs.Layout
/-!
What the parts of a node are when it stands for a proper tree.
-/
namespace Parlance.Forest

open List

variable {f : Forest} {q : Shape → Bool} {n : Node} {t : Tree} {s : String} {cs : List Tree}

@[grind →]
theorem part?_mem {c : Node} (h : f.part? q n = some c) : c ∈ f.children n ∧ q c.shape := by
  have hq := find?_some h
  exact ⟨mem_of_find?_eq_some h, hq⟩

@[grind →]
theorem Has.part {c : Node} (h : f.Has n) (hc : f.part? q n = some c) : f.Has c :=
  (h.child (part?_mem hc).1).1

theorem Has.admits (h : f.Has n) : ∃ cs, Tree.Admits n.shape cs ∧ List.Forall₂ f.Stands (f.children n) cs := by
  obtain ⟨t, ht⟩ := h
  refine ⟨t.children, ?_, ht.children.imp fun _ _ hc => hc.1⟩
  rw [ht.shape_eq]
  cases ht.proper with
  | node ha _ => exact ha

attribute [grind cases] Tree.Admits
attribute [grind =] Tree.isLeaf Tree.wrapsSymbol Tree.wrapsExpression Shape.isSymbol Shape.isOperator
attribute [grind →] Stands.shape_eq

@[grind →]
theorem Stands.has (h : f.Stands n t) : f.Has n := ⟨t, h⟩

@[grind →]
theorem stand_cons {ns : List Node} (h : List.Forall₂ f.Stands ns (t :: cs)) :
    ∃ c rest, ns = c :: rest ∧ f.Stands c t ∧ List.Forall₂ f.Stands rest cs := by
  obtain ⟨c, rest, hc, hrest, hns⟩ := forall₂_cons_right_iff.mp h
  exact ⟨c, rest, hns, hc, hrest⟩

@[grind →]
theorem stand_nil {ns : List Node} (h : List.Forall₂ f.Stands ns []) : ns = [] := forall₂_nil_right_iff.mp h

/-! ### Names -/

theorem exists_symbol {s : Shape} (h : s.isSymbol) : ∃ w, s = .symbol w := by
  cases s <;> first | exact ⟨_, rfl⟩ | cases h

theorem exists_operator {s : Shape} (h : s.isOperator) : ∃ w, s = .operator w := by
  cases s <;> first | exact ⟨_, rfl⟩ | cases h

@[grind →]
theorem Has.nameOf_symbol (h : f.Has n) (hs : n.shape.isSymbol) :
    f.nameOf? n = some (spelling n.shape) ∧ Selector.isName (spelling n.shape) := by
  obtain ⟨cs, ha, -⟩ := h.admits
  obtain ⟨w, hn⟩ := exists_symbol hs
  rw [hn] at ha
  refine ⟨by simp [nameOf?, symbol?, hn], ?_⟩
  cases ha with
  | symbol hw => rwa [hn]
  | leaf hw | wrapsSymbol hw | wrapsExpression hw => cases hw

@[grind →]
theorem Has.nameOf_operator (h : f.Has n) (hs : n.shape.isOperator) :
    f.nameOf? n = some (spelling n.shape) ∧ Selector.isOperator (spelling n.shape) := by
  obtain ⟨cs, ha, -⟩ := h.admits
  obtain ⟨w, hn⟩ := exists_operator hs
  rw [hn] at ha
  refine ⟨by simp [nameOf?, symbol?, hn], ?_⟩
  cases ha with
  | operator hw => rwa [hn]
  | leaf hw | wrapsSymbol hw | wrapsExpression hw => cases hw

theorem Has.isName_nameOf (h : f.Has n) (hname : f.symbol? n = f.name? n)
    (hs : f.nameOf? n = some s) : Selector.isName s := by
  unfold nameOf? at hs
  rw [hname] at hs
  obtain ⟨c, hc, rfl⟩ := Option.map_eq_some_iff.mp hs
  exact ((h.part hc).nameOf_symbol (part?_mem hc).2).2

theorem Has.symbol {s : Node} (h : f.Has n) (hs : f.symbol? n = some s) : f.Has s := by
  have hlast (q : Node) (hq : f.qualified? n = some q) (hl : (f.children q).getLast? = some s) : f.Has s :=
    ((h.part hq).child (mem_of_getLast? hl)).1
  unfold symbol? at hs
  split at hs <;> grind [name?, Option.bind_eq_some_iff]

/-! ### Keywords -/

theorem mapM_eq_some {α β : Type} {g : α → Option β} {Q : β → Prop} {l : List α}
    (h : ∀ a ∈ l, ∃ b, g a = some b ∧ Q b) : ∃ bs, l.mapM g = some bs ∧ bs.length = l.length ∧ ∀ b ∈ bs, Q b := by
  induction l with
  | nil => exact ⟨[], rfl, rfl, nofun⟩
  | cons a l ih =>
    obtain ⟨b, hb, hq⟩ := h a mem_cons_self
    obtain ⟨bs, hbs, hlen, hqs⟩ := ih fun c hc => h c (mem_cons_of_mem a hc)
    exact ⟨b :: bs, by simp [mapM_cons, hb, hbs], by simp [hlen], by grind⟩

theorem length_filterMap {α β : Type} {g : α → Option β} {l : List α}
    (h : ∀ a ∈ l, (g a).isSome) : (l.filterMap g).length = l.length := by
  induction l <;> grind

section

variable (hq : ∀ s, q s → s.isExpression ∨ s = .parameter)
include hq

theorem Stands.pair (h : f.Stands n t) (ht : Tree.IsPair q t) :
    ∃ k v, f.name? n = some k ∧ f.nameOf? k = some (spelling k.shape) ∧
      Selector.isName (spelling k.shape) ∧ f.pairValue? n = some v ∧ q v.shape := by
  cases ht with
  | @mk span k v hk hv =>
    have hc := h.children.imp fun _ _ hc => hc.1
    obtain ⟨ck, cv, hcs, hck, hcv⟩ : ∃ ck cv, f.children n = [ck, cv] ∧ f.Stands ck k ∧ f.Stands cv v := by
      grind [Tree.children]
    rw [← hck.shape_eq] at hk
    have hx : (ck.shape.isExpression || ck.shape == .parameter) = false := by
      cases hs : ck.shape <;> rw [hs] at hk <;> cases hk
      rfl
    exact ⟨ck, cv, by grind [name?, part?], by grind, by grind, by grind [pairValue?, part?], by grind⟩

/-- Keywords with their values make a selector, and there are as many values as it takes. -/
theorem Has.keywords (hc : List.Forall₂ f.Stands (f.children n) cs) (hne : cs ≠ []) (hcs : ∀ c ∈ cs, Tree.IsPair q c) :
    ∃ s, f.keywordSelector? n = some s ∧ Selector.arity s = (f.pairs n).length ∧
      (f.keywordValues n).length = (f.pairs n).length := by
  have hpair (c : Node) (hmem : c ∈ f.children n) : c.shape = .keywordPair ∧ ∃ k v, f.name? c = some k ∧
      f.nameOf? k = some (spelling k.shape) ∧ Selector.isName (spelling k.shape) ∧ f.pairValue? c = some v := by
    obtain ⟨t, ht, hs⟩ := exists_of_mem hc hmem
    obtain ⟨k, v, hk, hn, hi, hv, -⟩ := hs.pair hq (hcs t ht)
    cases hcs t ht
    exact ⟨hs.shape_eq, k, v, hk, hn, hi, hv⟩
  have hpairs : f.pairs n = f.children n := by grind [pairs, filter_eq_self]
  obtain ⟨ss, hss, hlen, hisName⟩ := mapM_eq_some (l := f.pairs n)
    (g := fun pair => (f.name? pair).bind f.nameOf?) (Q := fun s => Selector.isName s) (by grind)
  have hpos : ss ≠ [] := by grind [hc.length_eq]
  refine ⟨String.join (ss.map (· ++ ":")), ?_, ?_, length_filterMap ?_⟩
  · simp [keywordSelector?, hss, hpos]
  · rw [Selector.arity_keywords hpos hisName, hlen]
  · grind

theorem Has.keywordValue (h : f.Has n) (hc : List.Forall₂ f.Stands (f.children n) cs)
    (hcs : ∀ c ∈ cs, Tree.IsPair q c) {e : Node × Node} (he : e ∈ f.keywordValues n) :
    f.Has e.2 ∧ q e.2.shape ∧ n.id < e.2.id := by
  obtain ⟨pair, hpair, hparts⟩ := mem_filterMap.mp he
  obtain ⟨k, -, hrest⟩ := Option.bind_eq_some_iff.mp hparts
  obtain ⟨v, hv, heq⟩ := Option.bind_eq_some_iff.mp hrest
  cases heq
  have hmem := (mem_filter.mp hpair).1
  obtain ⟨t, ht, hs⟩ := exists_of_mem hc hmem
  obtain ⟨-, v', -, -, -, hv', hshape⟩ := hs.pair hq (hcs t ht)
  obtain rfl := Option.some.inj (hv.symm.trans hv')
  obtain ⟨hhas, -, hlt, -⟩ := h.child hmem
  obtain ⟨hvhas, -, hvlt, -⟩ := hhas.child (part?_mem hv).1
  exact ⟨hvhas, hshape, Nat.lt_trans hlt hvlt⟩

end

theorem Has.keywordPattern (h : f.Has n) (hn : n.shape = .keywordPattern) :
    (f.keywordValues n).filterMap (fun e => f.nameOf? e.1) ≠ [] ∧
      f.keywordSelector? n = some (String.join
        (((f.keywordValues n).filterMap fun e => f.nameOf? e.1).map (· ++ ":"))) := by
  obtain ⟨cs, ha, hc⟩ := h.admits
  obtain ⟨hne, hcs⟩ : cs ≠ [] ∧ ∀ c ∈ cs, Tree.IsPair (· == .parameter) c := by grind
  have hq (s : Shape) (hs : (s == .parameter)) : s.isExpression ∨ s = .parameter := by grind
  obtain ⟨s, hsel, -, -⟩ := Has.keywords hq hc hne hcs
  have hpair : ∀ c ∈ f.pairs n, ∃ k v s, f.name? c = some k ∧ f.nameOf? k = some s ∧
      f.pairValue? c = some v := by
    intro c hmem
    obtain ⟨t, ht, hs⟩ := exists_of_mem hc (mem_filter.mp hmem).1
    grind [hs.pair hq (hcs t ht)]
  have hnames : (f.pairs n).mapM (fun pair => (f.name? pair).bind f.nameOf?) =
      some ((f.keywordValues n).filterMap fun e => f.nameOf? e.1) := by
    unfold keywordValues
    generalize f.pairs n = l at hpair
    induction l with
    | nil => rfl
    | cons c l ih =>
      obtain ⟨k, v, s, hk, hs, hv⟩ := hpair c mem_cons_self
      have hl := ih fun d hd => hpair d (mem_cons_of_mem c hd)
      simp [mapM_cons, hl, hk, hs, hv]
  rw [keywordSelector?, hnames] at hsel ⊢
  by_cases hnil : (f.keywordValues n).filterMap (fun e => f.nameOf? e.1) = []
  · simp [hnil] at hsel
  · exact ⟨hnil, by simp [hnil]⟩

/-! ### Messages and patterns -/

attribute [grind →] Selector.arity_of_isName Selector.arity_of_isOperator

theorem Has.message {n : Node} (h : f.Has n) (hn : n.shape.isMessage) :
    ∃ s, f.selector? n = some s ∧ Selector.arity s = (f.arguments n).length := by
  obtain ⟨cs, ha, hc⟩ := h.admits
  have hop (s : Shape) (hs : s.isOperator) : s.isExpression = false := by
    cases s <;> simp_all [Shape.isOperator, Shape.isExpression]
  cases hs : n.shape with
  | keywordMessage =>
    obtain ⟨s, hsel, har, hlen⟩ := Has.keywords (q := Shape.isExpression) (fun _ hq => .inl hq) hc (by grind) (by grind)
    exact ⟨s, by simp [selector?, hs, hsel], by simp [arguments, hs, hlen, har]⟩
  | unaryMessage | binaryMessage => grind [selector?, arguments, name?, value?, part?]
  | _ => simp [hs, Shape.isMessage] at hn

theorem Has.argument {a : Node} (h : f.Has n) (ha : a ∈ f.arguments n) :
    f.Has a ∧ a.shape.isExpression ∧ n.id < a.id := by
  unfold arguments at ha
  split at ha
  · grind [value?, Has.child]
  · obtain ⟨e, he, rfl⟩ := mem_map.mp ha
    obtain ⟨cs, hadm, hc⟩ := h.admits
    exact h.keywordValue (fun _ hq => .inl hq) hc (by grind) he
  · cases ha

theorem Has.pattern (h : f.Has n) (hn : n.shape.isPattern) :
    ∃ s, f.patternSelector? n = some s ∧ f.arity? n = some (Selector.arity s + 1) ∧
      (f.patternParameters n).length = Selector.arity s := by
  obtain ⟨cs, ha, hc⟩ := h.admits
  cases hs : n.shape with
  | keywordPattern =>
    obtain ⟨s, hsel, har, hlen⟩ := Has.keywords (q := (· == .parameter)) (by grind) hc (by grind) (by grind)
    exact ⟨s, by simp [patternSelector?, Shape.isPattern, selector?, hs, hsel], by simp [arity?, hs, har],
      by simp [patternParameters, hs, hlen, har]⟩
  | unaryPattern =>
    obtain ⟨c, hch, hcs, hsym⟩ : ∃ c, f.children n = [c] ∧ f.Has c ∧ c.shape.isSymbol := by grind
    have hname := hcs.nameOf_symbol hsym
    exact ⟨spelling c.shape, by simp [patternSelector?, Shape.isPattern, selector?, hs, name?, part?, hch, hsym,
      hname.1],
      by grind [arity?], by grind [patternParameters]⟩
  | binaryPattern =>
    obtain ⟨c, d, hch, hco, hop, hd⟩ : ∃ c d, f.children n = [c, d] ∧ f.Has c ∧ c.shape.isOperator ∧
        d.shape = .parameter := by grind
    have hname := hco.nameOf_operator hop
    have hnot : (c.shape == .parameter) = false := by
      obtain ⟨w, hw⟩ := exists_operator hop
      rw [hw]
      rfl
    exact ⟨spelling c.shape, by simp [patternSelector?, Shape.isPattern, selector?, hs, part?, hch, hop, hname.1],
      by grind [arity?], by simp [patternParameters, hs, part?, hch, hnot, hd, Selector.arity_of_isOperator hname.2]⟩
  | _ => simp [hs, Shape.isPattern] at hn

theorem nameOf_of_symbol (hc : List.Forall₂ f.Stands (f.children n) cs)
    {s : Tree} (hs : s ∈ cs) (hsym : s.shape.isSymbol) (hname : f.symbol? n = f.name? n) :
    ∃ name, f.nameOf? n = some name := by
  obtain ⟨c, hmem, hstands⟩ := exists_of_mem hc.flip hs
  have hpart : (f.name? n).isSome := by grind [name?, part?, find?_isSome]
  exact ⟨_, by rw [nameOf?, hname, (Option.some_get hpart).symm]; rfl⟩

/-! ### Members -/

theorem Has.mem_members {m : Node} (h : f.Has n) (hm : m ∈ f.members n) : f.Has m := by
  unfold members at hm
  cases hb : f.part? (· == .classBody) n with
  | none => simp [hb] at hm
  | some b =>
    simp only [hb, Option.map_some, Option.getD_some] at hm
    exact ((h.part hb).child (by grind)).1

theorem Has.mem_methods {m : Node} (h : f.Has n) (hm : m ∈ f.methods n) : f.Has m ∧ m.shape.isMethod :=
  ⟨h.mem_members (mem_filter.mp hm).1, (mem_filter.mp hm).2⟩

theorem Has.superExpression {t : Node} (h : f.Has n) (ht : t ∈ f.superExpressions n) :
    f.Has t ∧ t.shape.isTypeExpression := by
  obtain ⟨d, hd, hpart⟩ := mem_filterMap.mp ht
  exact ⟨(h.mem_members (mem_filter.mp hd).1).part hpart, (part?_mem hpart).2⟩

theorem Has.declared (h : f.Has n) (hn : n.shape.isDeclaration) : ∃ name, f.nameOf? n = some name := by
  obtain ⟨cs, ha, hc⟩ := h.admits
  obtain ⟨s, hmem, hsym⟩ : ∃ s ∈ cs, s.shape.isSymbol := by
    cases hs : n.shape <;> first | (rw [hs] at hn; cases hn; done) | grind [Tree.IsTyped]
  refine nameOf_of_symbol hc hmem hsym ?_
  cases hs : n.shape <;> simp_all [symbol?, Shape.isDeclaration]

theorem Has.className (h : f.Has n) (hn : n.shape.isClass) : ∃ name, f.nameOf? n = some name :=
  h.declared (by cases hs : n.shape <;> simp_all [Shape.isClass, Shape.isDeclaration])

theorem Has.typeArgument {a : Node} (h : f.Has n) (ha : a ∈ f.typeArguments n) :
    f.Has a ∧ a.shape.isTypeExpression ∧ n.id < a.id := by
  unfold typeArguments at ha
  cases hl : f.part? (· == .typeArgumentList) n with
  | none => grind
  | some l =>
    have hlist := h.child (part?_mem hl).1
    obtain ⟨cs, hadmits, hall⟩ := hlist.1.admits
    have ha : a ∈ f.children l := by grind
    obtain ⟨t, ht, hstands⟩ := exists_of_mem hall ha
    grind [Has.child]

theorem Has.pattern? {q : Node} (h : f.Has n) (hq : f.pattern? n = some q) : f.Has q ∧ q.shape.isPattern := by
  unfold Forest.pattern? at hq
  grind [signature?, Option.bind_eq_some_iff]

theorem Has.methodPattern (h : f.Has n) (hn : n.shape.isMethod) : ∃ q, f.pattern? n = some q := by
  obtain ⟨cs, ha, hc⟩ := h.admits
  obtain ⟨s, hs⟩ : ∃ s, f.part? (· == .signature) n = some s := by
    rw [← Option.isSome_iff_exists, part?, find?_isSome]
    cases hshape : n.shape with
    | method => grind
    | _ => simp [hshape, Shape.isMethod] at hn
  obtain ⟨ds, hads, hd⟩ := (h.part hs).admits
  obtain ⟨q, hq⟩ : ∃ q, f.part? Shape.isPattern s = some q := by grind [part?]
  have hinit : n.shape.isInitializer = false := by
    cases hs : n.shape <;> simp_all [Shape.isMethod, Shape.isInitializer]
  exact ⟨q, by rw [Forest.pattern?, hinit, signature?, if_pos hn, hs]; exact hq⟩

theorem Has.member (h : f.Has n) (hs : f.methodSelector? n = some s ∨ f.initializerSelector? n = some s) :
    f.methodArity? n = some (Selector.arity s + 1) ∧ (f.parameters n).length = Selector.arity s ∧
      ∃ q, f.Has q ∧ f.selector? q = some s := by
  obtain ⟨q, hq, hqs⟩ : ∃ q, f.pattern? n = some q ∧ f.patternSelector? q = some s := by
    grind [methodSelector?, initializerSelector?, Option.bind_eq_some_iff]
  obtain ⟨hhas, hpat⟩ := h.pattern? hq
  obtain ⟨s', hs', har, hlen⟩ := hhas.pattern hpat
  obtain rfl := Option.some.inj (hs'.symm.trans hqs)
  refine ⟨by simp [methodArity?, hq, har], by simp [parameters, hq, hlen], q, hhas, ?_⟩
  simpa [patternSelector?, hpat] using hqs

theorem Has.patternParameter {q d : Node} (h : f.Has q) (hd : d ∈ f.patternParameters q) :
    f.Has d ∧ d.shape = .parameter := by
  unfold patternParameters at hd
  split at hd
  · grind
  · obtain ⟨e, he, rfl⟩ := mem_map.mp hd
    obtain ⟨cs, ha, hc⟩ := h.admits
    grind [h.keywordValue (q := (· == .parameter)) (by grind) hc (by grind) he]
  · cases hd

theorem Has.parameter {n d : Node} (h : f.Has n) (hd : d ∈ f.parameters n) : f.Has d ∧ d.shape = .parameter := by
  unfold parameters at hd
  cases hq : f.pattern? n with
  | none => simp [hq] at hd
  | some q =>
    rw [hq] at hd
    exact (h.pattern? hq).1.patternParameter hd

theorem Has.not_parameter {pair v : Node} (h : f.Has n) (hn : n.shape.isInitializer)
    (hpair : pair ∈ f.pairs n) (hv : v ∈ f.children pair) : v.shape ≠ .parameter := by
  obtain ⟨hmem, hshape⟩ := mem_filter.mp hpair
  obtain ⟨cs, ha, hall⟩ := h.admits
  obtain ⟨t, ht, hstands⟩ := exists_of_mem hall hmem
  obtain ⟨d, hd, hdv⟩ := exists_of_mem (hstands.children.imp fun _ _ hc => hc.1) hv
  cases hs : n.shape with
  | initializer => grind
  | _ => simp [hs, Shape.isInitializer] at hn

theorem Has.assignment (h : f.Has n) {a : Assignment} (ha : a ∈ f.assignments n) :
    f.Has a.value ∧ a.value.shape.isExpression ∧ Selector.isName a.name := by
  unfold assignments at ha
  split at ha
  · rename_i hn
    obtain ⟨⟨k, v⟩, hkv, hname⟩ := mem_filterMap.mp ha
    obtain ⟨pair, hpair, hparts⟩ := mem_filterMap.mp hkv
    obtain ⟨s, hs, rfl⟩ := Option.map_eq_some_iff.mp hname
    obtain ⟨k', hk, hrest⟩ := Option.bind_eq_some_iff.mp hparts
    obtain ⟨v', hv, heq⟩ := Option.bind_eq_some_iff.mp hrest
    cases heq
    have hhas := (h.child (mem_filter.mp hpair).1).1
    grind [h.not_parameter hn hpair (part?_mem hv).1, name?, pairValue?]
  · cases ha

/-! ### The selectors of a program -/

/-- The selectors that a node brings in. A variable has one that reads and one that sets it, and an
assignment is sent as a message. -/
def selectorsAt (f : Forest) (n : Node) : List String :=
  match n.shape with
  | .variableNode _ => (f.nameOf? n).toList.flatMap fun s => [s, s ++ ":"]
  | .initializer _ => (f.assignments n).map (·.name ++ ":")
  | _ => (f.selector? n).toList

def selectors (f : Forest) : List String := f.all.flatMap f.selectorsAt

theorem Sown.mem_selectors (h : f.Sown) (hn : f.Has n) (hs : s ∈ f.selectorsAt n) : s ∈ f.selectors :=
  mem_flatMap.mpr ⟨n, h.mem_all.mpr hn, hs⟩

theorem mem_selectorsAt (hs : f.selector? n = some s) : s ∈ f.selectorsAt n := by
  cases hn : n.shape <;> simp_all [selector?, selectorsAt]

end Parlance.Forest
