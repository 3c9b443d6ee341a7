import Parlance.Proofs.ValidTrees
/-!
The parts a node must have. A text without remarks leaves out only values in the pairs of initializers.
-/
namespace Parlance

open List

/-- The parts a node of this shape must have below a node of the shape `above`. -/
def Shape.wants (shape above : Shape) : List (Shape → Bool) :=
  match shape with
  | classNode _ | typeParameter _ | variableNode _ | parameter | reference | unaryMessage | unaryPattern
  | typeReference | qualifiedSymbol => [isSymbol]
  | letBinding => [isSymbol, isExpression]
  | letExpression => [(· == letBinding), isExpression]
  | tuple | panicExpression | methodBody | lineExpression | lineDirective _ => [isExpression]
  | send | cascade => [isExpression, isMessage]
  | binaryMessage => [isOperator, isExpression]
  | binaryPattern => [isOperator, (· == parameter)]
  | keywordMessage | keywordPattern => [(· == keywordPair)]
  | keywordPair => [isSymbol, if above = keywordPattern then (· == parameter) else isExpression]
  | method .. => [(· == signature)]
  | initializer _ => [(· == keywordPattern)]
  | signature => [isPattern]
  | isDirective | returnType => [isTypeExpression]
  | exported => [fun s => s.isClass || s == letBinding]
  | namespaceDirective | importDirective => [(· == qualifiedSymbol)]
  | _ => []

namespace Tree

variable {cs : List Tree} {above shape : Shape} {c t : Tree}

def isFull (above : Shape) (t : Tree) : Bool := (t.shape.wants above).all fun p => (t.child? p).isSome

def isComplete (t : Tree) : Bool :=
  t.isFull t.shape && t.nodes.all fun q => q.children.all (isFull q.shape)

def mayHold : Shape → Shape → Bool
  | .moduleRoot, s => isTopLevel s
  | .lineRoot, s => isStatement s
  | .exported, s => s.isClass || s == .letBinding
  | .namespaceDirective, s => s == .qualifiedSymbol
  | .importDirective, s => s == .qualifiedSymbol || s.isSymbol
  | .classNode _, s => s.isSymbol || s == .typeParameterList || s == .classBody
  | .typeParameterList, s => s.isTypeParameter
  | .classBody, s => isMember s
  | .isDirective, s | .returnType, s | .typeArgumentList, s => s.isTypeExpression
  | .method .., s => s == .signature || s == .methodBody
  | .initializer _, s => s == .keywordPattern || s == .keywordPair
  | .signature, s => s.isPattern || s == .returnType
  | .binaryPattern, s => s.isOperator || s == .parameter
  | .keywordPattern, s | .keywordMessage, s => s == .keywordPair
  | .keywordPair, s => s.isSymbol || s.isExpression || s == .parameter
  | .parameter, s | .variableNode _, s => s.isSymbol || s.isTypeExpression
  | .typeReference, s => s.isSymbol || s == .typeArgumentList
  | .qualifiedSymbol, s | .reference, s | .unaryMessage, s | .unaryPattern, s | .typeParameter _, s => s.isSymbol
  | .methodBody, s | .tuple, s | .panicExpression, s | .lineExpression, s | .lineDirective _, s => s.isExpression
  | .send, s | .cascade, s => s.isExpression || s.isMessage
  | .binaryMessage, s => s.isOperator || s.isExpression
  | .letExpression, s => s == .letBinding || s.isExpression
  | .letBinding, s => s.isSymbol || s.isTypeExpression || s.isExpression
  | _, _ => false

theorem IsTyped.forall_mem {rest : List Tree} (h : IsTyped rest cs) {q : Shape → Bool}
    (hq : ∀ s, s.isTypeExpression → q s) (hr : ∀ c ∈ rest, q c.shape) : ∀ c ∈ cs, q c.shape := by
  cases h with
  | untyped => exact hr
  | typed ht => exact forall_mem_cons.mpr ⟨hq _ ht, hr⟩

theorem Admits.mayHold (h : Admits shape cs) : ∀ c ∈ cs, Tree.mayHold shape c.shape := by
  cases h with
  | symbol | operator | leaf => exact fun _ h => absurd h not_mem_nil
  | wrapsSymbol hw hs =>
    refine forall_mem_singleton.mpr ?_
    cases shape <;> first | exact hs | cases hw
  | wrapsExpression hw he =>
    refine forall_mem_singleton.mpr ?_
    cases shape <;> first | exact he | cases hw
  | send he hm => simp [Tree.mayHold, he, hm]
  | cascade he hm => grind [Tree.mayHold]
  | letExpression hb he => simp [Tree.mayHold, hb, he]
  | letBinding hs he ht =>
    exact ht.forall_mem (q := Tree.mayHold .letBinding) (fun s h => by simp [Tree.mayHold, h])
      (by simp [Tree.mayHold, hs, he])
  | binaryMessage ho he => simp [Tree.mayHold, ho, he]
  | binaryPattern ho hq => simp [Tree.mayHold, ho, hq]
  | keywordMessage hne hc | keywordPattern hne hc =>
    intro c h
    cases hc c h
    rfl
  | keyword hk => simp [Tree.mayHold, hk]
  | keywordPair hk hv => rcases hv with hv | hv <;> simp [Tree.mayHold, hk, hv]
  | parameter hs ht =>
    exact ht.forall_mem (q := Tree.mayHold .parameter) (fun s h => by simp [Tree.mayHold, h])
      (by simp [Tree.mayHold, hs])
  | @variableNode v _ _ hs ht =>
    exact ht.forall_mem (q := Tree.mayHold (.variableNode v)) (fun s h => by simp [Tree.mayHold, h])
      (by simp [Tree.mayHold, hs])
  | signature hq hr => grind [Tree.mayHold]
  | returnType ht | isDirective ht => simp [Tree.mayHold, ht]
  | method hs hb => grind [Tree.mayHold]
  | initializer hq hc => grind [Tree.mayHold]
  | classNode hs hp hb => grind [Tree.mayHold]
  | typeReference hs hl => grind [Tree.mayHold]
  | classBody hc | typeParameterList hc | typeArgumentList hc | moduleRoot hc | lineRoot hc => exact hc
  | qualifiedSymbol _ hc => exact hc
  | exported hd => rcases hd with hd | hd <;> simp [Tree.mayHold, hd]
  | namespaceDirective hq => simp [Tree.mayHold, hq]
  | importDirective hq hs => grind [Tree.mayHold]

theorem isSome_child? {p : Shape → Bool} (hc : c ∈ t.children) (hp : p c.shape) : (t.child? p).isSome :=
  find?_isSome.mpr ⟨c, hc, hp⟩

theorem isFull_iff : t.isFull above ↔ ∀ p ∈ t.shape.wants above, ∃ c ∈ t.children, p c.shape := by
  simp only [isFull, all_eq_true, child?, find?_isSome]

theorem IsTyped.subset {rest : List Tree} (h : IsTyped rest cs) : rest ⊆ cs := by
  cases h with
  | untyped => exact List.Subset.refl _
  | typed => exact subset_cons_self _ _

theorem Admits.isFull {span : Span} (h : Admits shape cs)
    (hpair : shape ≠ .keywordPair) : (node shape span cs).isFull above := by
  rw [isFull_iff]
  show ∀ p ∈ shape.wants above, ∃ c ∈ cs, p c.shape
  cases h with
  | symbol | operator => simp [Shape.wants]
  | leaf hs => cases shape <;> simp [isLeaf, Shape.wants] at hs ⊢
  | wrapsSymbol hw hs => cases shape <;> simp [Tree.wrapsSymbol, Shape.wants, hs] at hw ⊢
  | wrapsExpression hw he => cases shape <;> simp [Tree.wrapsExpression, Shape.wants, he] at hw ⊢
  | send he hm => simp [Shape.wants, he, hm]
  | cascade he hm => simp [Shape.wants, he, hm _ mem_cons_self]
  | letExpression hb he => simp [Shape.wants, hb, he]
  | letBinding hs he ht =>
    have hsub := ht.subset
    simp only [Shape.wants, forall_mem_cons]
    grind
  | binaryMessage ho he => simp [Shape.wants, ho, he]
  | binaryPattern ho hq => simp [Shape.wants, ho, hq]
  | keywordMessage hne hc | keywordPattern hne hc =>
    obtain ⟨c, hmem⟩ := exists_mem_of_ne_nil _ hne
    have hshape : c.shape = .keywordPair := by
      cases hc c hmem
      rfl
    simpa [Shape.wants] using ⟨c, hmem, hshape⟩
  | keyword | keywordPair => exact absurd rfl hpair
  | parameter hs ht | variableNode hs ht => simpa [Shape.wants] using ⟨_, ht.subset mem_cons_self, hs⟩
  | signature hq | returnType hq | isDirective hq | method hq | initializer hq | exported hq
  | namespaceDirective hq | importDirective hq | classNode hq | typeReference hq => simp [Shape.wants, hq]
  | qualifiedSymbol hne hc =>
    obtain ⟨c, hmem⟩ := exists_mem_of_ne_nil _ hne
    simpa [Shape.wants] using ⟨c, hmem, hc c hmem⟩
  | classBody | typeParameterList | typeArgumentList | moduleRoot | lineRoot => simp [Shape.wants]

theorem IsPair.isFull {p : Shape → Bool} (h : IsPair p t)
    (hp : (if above = .keywordPattern then (· == .parameter) else Shape.isExpression) = p) : t.isFull above := by
  cases h with
  | mk hk hv =>
    rw [isFull_iff]
    simp only [shape, Shape.wants, forall_mem_cons, hp]
    exact ⟨⟨_, mem_cons_self, hk⟩, ⟨_, mem_cons_of_mem _ mem_cons_self, hv⟩, by simp⟩

/-- A pair of an initializer that has a keyword and nothing else. -/
def IsGap (t : Tree) (above : Shape) : Prop :=
  above.isInitializer ∧ t.shape = .keywordPair ∧ ∃ k, t.children = [k] ∧ k.shape.isSymbol

/-- Pairs stand in messages, in patterns and in initializers, and only the last take them without a value. -/
theorem Admits.isFull_pair (h : Admits shape cs) (hc : c ∈ cs)
    (hp : c.Proper) (hpair : c.shape = .keywordPair) : c.isFull shape ∨ IsGap c shape := by
  have hhold := h.mayHold c hc
  rw [hpair] at hhold
  cases shape with
  | keywordMessage =>
    cases h with
    | keywordMessage _ hcs => exact .inl ((hcs c hc).isFull (if_neg (by decide)))
    | leaf h | wrapsSymbol h | wrapsExpression h => cases h
  | keywordPattern =>
    cases h with
    | keywordPattern _ hcs => exact .inl ((hcs c hc).isFull (if_pos rfl))
    | leaf h | wrapsSymbol h | wrapsExpression h => cases h
  | initializer v =>
    cases h with
    | initializer hq hcs =>
      obtain rfl | hc := mem_cons.mp hc
      · rw [hq] at hpair
        cases hpair
      obtain ⟨-, hvalue⟩ := hcs c hc
      cases hp with
      | node hadmits _ =>
        obtain rfl := hpair
        cases hadmits with
        | keyword hk => exact .inr ⟨rfl, rfl, _, rfl, hk⟩
        | keywordPair hk hv =>
          have hv := hv.resolve_right (hvalue _ (by simp [children]))
          exact .inl ((IsPair.mk hk hv).isFull (if_neg (by simp)))
        | leaf h | wrapsSymbol h | wrapsExpression h => cases h
    | leaf h | wrapsSymbol h | wrapsExpression h => cases h
  | _ => cases hhold

theorem Admits.isFull_child (h : Admits shape cs) (hc : c ∈ cs) (hp : c.Proper) : c.isFull shape ∨ IsGap c shape := by
  by_cases hpair : c.shape = .keywordPair
  · exact h.isFull_pair hc hp hpair
  · cases hp with
    | node hadmits _ => exact .inl (hadmits.isFull hpair)

theorem Proper.of_mem_nodes {n : Tree} (h : t.Proper) (hn : n ∈ t.nodes) : n.Proper := by
  induction h with
  | node hadmits hc ih =>
    rw [nodes_node] at hn
    obtain rfl | hn := mem_cons.mp hn
    · exact .node hadmits hc
    · grind

theorem Proper.isFull_child (h : t.Proper) (hc : c ∈ t.children) : c.isFull t.shape ∨ IsGap c t.shape := by
  cases h with
  | node hadmits hcs => exact hadmits.isFull_child hc (hcs c hc)

theorem IsGap.not_isFull (h : IsGap t above) : (t.child? Shape.isExpression).isSome = false := by
  obtain ⟨-, -, k, hk, hsymbol⟩ := h
  cases hs : k.shape <;> simp_all [child?, Shape.isSymbol, Shape.isExpression]

theorem Proper.isComplete_iff (h : t.Proper) (hroot : t.shape ≠ .keywordPair) :
    t.isComplete ↔ ∀ q ∈ t.nodes, q.shape.isInitializer → ∀ c ∈ q.children,
      c.shape = .keywordPair → (c.child? Shape.isExpression).isSome := by
  have hfull : t.isFull t.shape := by
    cases h with
    | node hadmits _ => exact hadmits.isFull hroot
  rw [isComplete, hfull, Bool.true_and, all_eq_true]
  refine forall₂_congr fun q hq => ?_
  rw [all_eq_true]
  constructor
  · intro hall hinit c hc hpair
    obtain ⟨v, hv⟩ : ∃ v, q.shape = .initializer v := by
      cases hs : q.shape <;> rw [hs] at hinit <;> first | exact ⟨_, rfl⟩ | cases hinit
    have hc := isFull_iff.mp (hall c hc)
    rw [hpair, hv] at hc
    obtain ⟨e, he, hexpr⟩ := hc Shape.isExpression (by simp [Shape.wants])
    exact isSome_child? he hexpr
  · intro hvalues c hc
    refine ((h.of_mem_nodes hq).isFull_child hc).resolve_right fun hgap => ?_
    have hsome := hvalues hgap.1 c hc hgap.2.1
    rw [hgap.not_isFull] at hsome
    cases hsome

end Tree

/-- In the tree of a text without remarks only pairs of initializers lack a part, their value: it is
complete if and only if all of them have one. -/
theorem Source.missing_of_no_remarks {s : Source} (h : (s.parse none).remarks = []) :
    (∀ q ∈ (s.parse none).tree.nodes, ∀ c ∈ q.children, c.isFull q.shape = true ∨ c.IsGap q.shape) ∧
    ((s.parse none).tree.isComplete = true ↔ ∀ q ∈ (s.parse none).tree.nodes, q.shape.isInitializer = true →
      ∀ c ∈ q.children, c.shape = .keywordPair → (c.child? Shape.isExpression).isSome = true) := by
  have hproper : (s.parse none).tree.Proper := proper_of_no_errors (by rw [h]; rfl)
  have hroot : (s.parse none).tree.shape ≠ .keywordPair := by
    rw [(s.root_parse none).1, Grammar.rootShape]
    split <;> decide
  exact ⟨fun q hq c hc => (hproper.of_mem_nodes hq).isFull_child hc, hproper.isComplete_iff hroot⟩

def Source.valueless : Source :=
  .ofString .module "test:main.loa" "class A { var Integer a. init a: Integer x => a: . }"

theorem Source.missing_of_no_remarks_valueless :
    (valueless.parse none).remarks = [] ∧ (valueless.parse none).tree.isComplete = false ∧
    (∀ q ∈ (valueless.parse none).tree.nodes, ∀ c ∈ q.children, c.isFull q.shape = true ∨ c.IsGap q.shape) := by
  have h : (valueless.parse none).remarks = [] := by decide +kernel
  exact ⟨h, by decide +kernel, (missing_of_no_remarks h).1⟩

end Parlance
