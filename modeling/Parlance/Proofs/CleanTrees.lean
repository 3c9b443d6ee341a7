import Parlance.Grammar.Document
import Parlance.Proofs.Arenas
import Parlance.Proofs.Words
/-!
What trees are like that there was nothing to remark on: made by the rules below.
-/
namespace Parlance

namespace Tree

inductive IsPair (p : Shape → Bool) : Tree → Prop where
  | mk {span} {k v : Tree} (hk : k.shape.isSymbol) (hv : p v.shape) : IsPair p (.node .keywordPair span [k, v])

inductive IsTyped : List Tree → List Tree → Prop where
  | untyped (cs : List Tree) : IsTyped cs cs
  | typed {t : Tree} (ht : t.shape.isTypeExpression) (cs : List Tree) : IsTyped cs (t :: cs)

def isTopLevel : Shape → Bool
  | .namespaceDirective | .importDirective | .classNode _ | .letBinding | .exported => true
  | _ => false

def isStatement : Shape → Bool
  | .lineDirective _ | .lineExpression | .importDirective | .classNode _ | .letBinding | .exported => true
  | _ => false

def isMember : Shape → Bool
  | .isDirective | .variableNode _ | .initializer _ | .method .. => true
  | _ => false

def isLeaf : Shape → Bool
  | .selfReference | .selfType | .string .. | .character .. | .symbolLiteral .. | .integer ..
  | .float .. => true
  | _ => false

def wrapsExpression : Shape → Bool
  | .tuple | .panicExpression | .methodBody | .lineExpression | .lineDirective _ => true
  | _ => false

def wrapsSymbol : Shape → Bool
  | .reference | .unaryMessage | .unaryPattern | .typeParameter _ => true
  | _ => false

inductive Admits : Shape → List Tree → Prop where
  | symbol {w : Token} (hw : Selector.isName w.name) : Admits (.symbol w) []
  | operator {w : Token} (hw : Selector.isOperator w.name) : Admits (.operator w) []
  | leaf {shape} (hs : isLeaf shape) : Admits shape []
  | wrapsSymbol {shape} {s : Tree} (hw : wrapsSymbol shape) (hs : s.shape.isSymbol) : Admits shape [s]
  | wrapsExpression {shape} {e : Tree} (hw : wrapsExpression shape) (he : e.shape.isExpression) : Admits shape [e]
  | send {e m : Tree} (he : e.shape.isExpression) (hm : m.shape.isMessage) : Admits .send [e, m]
  | cascade {e : Tree} {m ms} (he : e.shape.isExpression) (hm : ∀ c ∈ m :: ms, c.shape.isMessage) :
    Admits .cascade (e :: m :: ms)
  | letExpression {b e : Tree} (hb : b.shape = .letBinding) (he : e.shape.isExpression) : Admits .letExpression [b, e]
  | letBinding {s e : Tree} {cs} (hs : s.shape.isSymbol) (he : e.shape.isExpression)
    (ht : IsTyped [s, e] cs) : Admits .letBinding cs
  | binaryMessage {o e : Tree} (ho : o.shape.isOperator) (he : e.shape.isExpression) : Admits .binaryMessage [o, e]
  | binaryPattern {o q : Tree} (ho : o.shape.isOperator) (hq : q.shape = .parameter) : Admits .binaryPattern [o, q]
  | keywordMessage {cs} (hne : cs ≠ []) (hc : ∀ c ∈ cs, IsPair Shape.isExpression c) : Admits .keywordMessage cs
  | keywordPattern {cs} (hne : cs ≠ []) (hc : ∀ c ∈ cs, IsPair (· == .parameter) c) : Admits .keywordPattern cs
  | keyword {k : Tree} (hk : k.shape.isSymbol) : Admits .keywordPair [k]
  | keywordPair {k v : Tree} (hk : k.shape.isSymbol)
    (hv : v.shape.isExpression ∨ v.shape = .parameter) : Admits .keywordPair [k, v]
  | parameter {s : Tree} {cs} (hs : s.shape.isSymbol) (ht : IsTyped [s] cs) : Admits .parameter cs
  | variableNode {v} {s : Tree} {cs} (hs : s.shape.isSymbol) (ht : IsTyped [s] cs) : Admits (.variableNode v) cs
  | signature {q : Tree} {rs} (hq : q.shape.isPattern) (hr : ∀ r ∈ rs, r.shape = .returnType) :
    Admits .signature (q :: rs)
  | returnType {t : Tree} (ht : t.shape.isTypeExpression) : Admits .returnType [t]
  | isDirective {t : Tree} (ht : t.shape.isTypeExpression) : Admits .isDirective [t]
  | method {v native} {s : Tree} {bs} (hs : s.shape = .signature) (hb : ∀ b ∈ bs, b.shape = .methodBody) :
    Admits (.method v native) (s :: bs)
  | initializer {v} {q : Tree} {cs} (hq : q.shape = .keywordPattern)
    (hc : ∀ c ∈ cs, c.shape = .keywordPair ∧ ∀ d ∈ c.children, d.shape ≠ .parameter) :
    Admits (.initializer v) (q :: cs)
  | classBody {cs} (hc : ∀ c ∈ cs, isMember c.shape) : Admits .classBody cs
  | classNode {isPartial} {s : Tree} {ps bs} (hs : s.shape.isSymbol)
    (hp : ∀ c ∈ ps, c.shape = .typeParameterList) (hb : ∀ c ∈ bs, c.shape = .classBody) :
    Admits (.classNode isPartial) (s :: (ps ++ bs))
  | typeParameterList {cs} (hc : ∀ c ∈ cs, c.shape.isTypeParameter) : Admits .typeParameterList cs
  | typeReference {s : Tree} {ls} (hs : s.shape.isSymbol) (hl : ∀ l ∈ ls, l.shape = .typeArgumentList) :
    Admits .typeReference (s :: ls)
  | typeArgumentList {cs} (hc : ∀ c ∈ cs, c.shape.isTypeExpression) : Admits .typeArgumentList cs
  | exported {d : Tree} (hd : d.shape.isClass ∨ d.shape = .letBinding) : Admits .exported [d]
  | namespaceDirective {q : Tree} (hq : q.shape = .qualifiedSymbol) : Admits .namespaceDirective [q]
  | importDirective {q : Tree} {ss} (hq : q.shape = .qualifiedSymbol) (hs : ∀ s ∈ ss, s.shape.isSymbol) :
    Admits .importDirective (q :: ss)
  | qualifiedSymbol {cs} (hne : cs ≠ []) (hc : ∀ c ∈ cs, c.shape.isSymbol) : Admits .qualifiedSymbol cs
  | moduleRoot {cs} (hc : ∀ c ∈ cs, isTopLevel c.shape) : Admits .moduleRoot cs
  | lineRoot {cs} (hc : ∀ c ∈ cs, isStatement c.shape) : Admits .lineRoot cs

/-- Every node of the tree has the children its shape wants. -/
inductive Proper : Tree → Prop where
  | node {shape span children} (h : Admits shape children) (hc : ∀ c ∈ children, Proper c) :
    Proper (.node shape span children)

end Tree

namespace Grammar

variable {t : Tree}

theorem forall_mem_concat {α : Type} {Q : α → Prop} {a : α} {as : List α} (hs : ∀ c ∈ as, Q c) (h : Q a) :
    ∀ c ∈ as ++ [a], Q c :=
  List.forall_mem_append.mpr ⟨hs, List.forall_mem_singleton.mpr h⟩

theorem forall_mem_toList {α : Type} {Q : α → Prop} {o : Option α} (h : ∀ t ∈ o, Q t) : ∀ t ∈ o.toList, Q t :=
  fun t ht => h t (Option.mem_toList.mp ht)

def IsName (t : Tree) : Prop := t.Proper ∧ t.shape.isSymbol

def IsExpression (t : Tree) : Prop := t.Proper ∧ t.shape.isExpression

def IsMessage (t : Tree) : Prop := t.Proper ∧ t.shape.isMessage

def IsType (t : Tree) : Prop := t.Proper ∧ t.shape.isTypeExpression

def Is (shape : Shape) (t : Tree) : Prop := t.Proper ∧ t.shape = shape

def IsMember (t : Tree) : Prop := t.Proper ∧ Tree.isMember t.shape

def IsTopLevel (t : Tree) : Prop := t.Proper ∧ Tree.isTopLevel t.shape

def IsStatement (t : Tree) : Prop := t.Proper ∧ Tree.isStatement t.shape

def IsDeclaration (t : Tree) : Prop :=
  t.Proper ∧ (t.shape.isClass ∨ t.shape = .letBinding ∨ t.shape = .exported)

theorem IsDeclaration.stands (h : IsDeclaration t) : Tree.isTopLevel t.shape ∧ Tree.isStatement t.shape := by
  obtain h | h | h := h.2
  · cases hs : t.shape <;> rw [hs] at h <;> cases h
    exact ⟨rfl, rfl⟩
  · rw [h]; exact ⟨rfl, rfl⟩
  · rw [h]; exact ⟨rfl, rfl⟩

theorem IsDeclaration.topLevel (h : IsDeclaration t) : IsTopLevel t := ⟨h.1, h.stands.1⟩

theorem IsDeclaration.statement (h : IsDeclaration t) : IsStatement t := ⟨h.1, h.stands.2⟩

def Each (Q : Tree → Prop) (o : Option Twig) : Prop := ∀ t ∈ o, Q t.tree

def One (Q : Tree → Prop) (o : Option Twig) : Prop := ∃ t, o = some t ∧ Q t.tree

def IsPair (Q : Option Twig → Prop) (t : Tree) : Prop :=
  ∃ span k v, t = .node .keywordPair span (k :: v.toList.map Twig.tree) ∧ IsName k ∧ Q v

theorem isPair_of_parameter (h : IsPair (One (Is .parameter)) t) : t.Proper ∧ Tree.IsPair (· == .parameter) t := by
  obtain ⟨span, k, -, rfl, hk, v, rfl, hv⟩ := h
  exact ⟨.node (.keywordPair hk.2 (.inr hv.2)) (by simp [hk.1, hv.1]), .mk hk.2 (by simp [hv.2])⟩

theorem isPair_of_expression (h : IsPair (One IsExpression) t) : t.Proper ∧ Tree.IsPair Shape.isExpression t := by
  obtain ⟨span, k, -, rfl, hk, v, rfl, hv⟩ := h
  exact ⟨.node (.keywordPair hk.2 (.inl hv.2)) (by simp [hk.1, hv.1]), .mk hk.2 hv.2⟩

theorem isPair_of_assignment (h : IsPair (Each IsExpression) t) :
    t.Proper ∧ t.shape = .keywordPair ∧ ∀ d ∈ t.children, d.shape ≠ .parameter := by
  obtain ⟨span, k, o, rfl, hk, ho⟩ := h
  have hkp : k.shape ≠ .parameter := fun he => by rw [IsName, he] at hk; cases hk.2
  cases o with
  | none => exact ⟨.node (.keyword hk.2) (by simpa using hk.1), rfl, by simpa [Tree.children] using hkp⟩
  | some v =>
    have hv := ho v rfl
    have hvp : v.tree.shape ≠ .parameter := fun he => by rw [IsExpression, he] at hv; cases hv.2
    exact ⟨.node (.keywordPair hk.2 (.inl hv.2)) (by simp [hk.1, hv.1]), rfl,
      by simpa [Tree.children, hkp] using hvp⟩

theorem Tree.Proper.of_send (h : t.Proper) (hs : t.shape = .send) :
    ∃ e m, t.children = [e, m] ∧ IsExpression e ∧ IsMessage m := by
  obtain ⟨ha, hc⟩ := h
  cases hs
  cases ha with
  | send he hm => exact ⟨_, _, rfl, ⟨hc _ (by simp), he⟩, ⟨hc _ (by simp), hm⟩⟩
  | leaf hl => cases hl
  | wrapsSymbol hw => cases hw
  | wrapsExpression hw => cases hw

end Grammar

end Parlance
