import Parlance.Proofs.Progress
/-!
Every text is read to its end: no loop and no nesting comes to its bound. Where there is nothing to remark on,
nodes have all their parts and hold their children.
-/
namespace Parlance

open List

namespace Grammar

variable {src : Source} {n up : Nat} {s t u : State} {ts : List Twig} {a b : Twig} {o p q : Option Twig} {d : Bud}
  {primary value : Nat → Reader (Option Twig)} {H : Option Twig → Prop} {v : Visibility} {shape : Shape}
  {isPartial : Bool} {Q : Tree → Prop} {T : Option Twig → Prop} {word : Token}

abbrev Below (n : Nat) (s : State) : Prop := s.rest.length < n

abbrev Within (n : Nat) (s : State) : Prop := s.rest.length ≤ n

attribute [local grind] Lists

/-! ### Types and patterns -/

@[grind .]
theorem proper_leaf (h : Tree.isLeaf shape) : (closed d shape [] s).tree.Proper :=
  proper_closed (.leaf h) nofun

theorem proper_list (ha : (∀ c ∈ ts.map Twig.tree, Q c) → Tree.Admits shape (ts.map Twig.tree))
    (h : ∀ c ∈ ts, c.tree.Proper ∧ Q c) : (closed d shape ts s).tree.Proper :=
  proper_closed (ha (forall_mem_map.mpr fun c hc => (h c hc).2)) fun c hc => (h c hc).1

@[grind .]
theorem proper_typeArgumentList (h : ∀ c ∈ ts, IsType c) : (closed d .typeArgumentList ts s).tree.Proper :=
  proper_list .typeArgumentList h

@[grind .]
theorem proper_typeReference (ho : One IsName o) : (closed d .typeReference (trees o) s).tree.Proper := by
  obtain ⟨a, rfl, ha⟩ := ho
  exact proper_closed (.typeReference ha.2 nofun) (by simp [ha.1])

@[grind .]
theorem proper_genericReference (ho : One IsName o) (ha : Is .typeArgumentList a) :
    (closed d .typeReference (trees o ++ [a]) s).tree.Proper := by
  obtain ⟨n, rfl, hn⟩ := ho
  exact proper_closed (.typeReference hn.2 (by simp [ha.2])) (by simp [hn.1, ha.1])

theorem takes_typeArgumentList {argument : Nat → Reader (Option Twig)} (h : Finds src (Below n) argument IsType) :
    Takes src (fun s => At .openAngle s ∧ Within n s) (typeArgumentList argument) (Is .typeArgumentList) := by
  intro up s hs hk
  have harg := h.required .typeArgument
  simp [typeArgumentList]
  let I (ts : List Twig) (t : State) : Prop := Lists src s.arena.size s.opened IsType ts t ∧ Below s.rest.length t
  refine read_looping (I := I) (J := I) ?_ (fun ts t ht => ?_) fun ts t ht => ?_
  · grind
  · simp
    split
    · exact ht
    · split <;> simp
      · grind
      · split <;> grind
  · simp
    constructor <;> grind

theorem finds_typeExpressionWith {argument : Nat → Reader (Option Twig)} (h : Finds src (Below n) argument IsType) :
    Finds src (Within n) (typeExpressionWith argument) IsType := by
  intro up s hs hn
  have hlist := takes_typeArgumentList h
  have hname := @takes_symbol src
  simp [typeExpressionWith]
  split
  · split
    · constructor <;> grind
    · split <;> constructor <;> grind
  · constructor <;> grind

theorem finds_typeExpression : Finds src Any typeExpression IsType := by
  have hnested (depth : Nat) : Finds src (Below depth) (typeExpressionUpTo depth) IsType := by
    induction depth with
    | zero => exact fun _ _ _ h => absurd h (Nat.not_lt_zero _)
    | succ depth ih => exact fun up s hs h => finds_typeExpressionWith ih up s hs (Nat.le_of_lt_succ h)
  intro up s hs _
  simp [typeExpression]
  exact hnested _ up s hs (Nat.lt_succ_self _)

@[simp, grind =]
theorem kind_word : (s.word n).kind = s.kindAt n := rfl

abbrev AtBinary (s : State) : Prop := (s.kindAt 0).isBinaryOperator

abbrev AtKeyword (s : State) : Prop := s.kindAt 0 = .symbol ∧ s.kindAt 1 = .colon

@[grind →]
theorem not_eof_of_binary {k : Token.Kind} (h : k.isBinaryOperator) : k ≠ .eof := by
  rintro rfl
  cases h

/-- The text of an operator. -/
def IsOperator (w : Token) : Prop := w.text ≠ [] ∧ ∀ b ∈ w.text, Byte.isOperator b

theorem Reads.isOperator (h : Reads src up s ts t) (hk : AtBinary t) : IsOperator (t.word 0) :=
  have hw := (h.steady.word 0).2 (not_eof_of_binary hk)
  ⟨hw.text (not_eof_of_binary hk), hw.operator hk⟩

grind_pattern Reads.isOperator => Reads src up s ts t, IsOperator (t.word 0)

@[grind .]
theorem proper_operator {w : Token} (h : IsOperator w) :
    (closed d (.operator { w with kind := .operator }) [] s).tree.Proper := by
  refine proper_closed (.operator ?_) nofun
  simp only [Token.name]
  cases ht : w.text with
  | nil => exact absurd ht h.1
  | cons b bs => exact Scan.isOperator_of_bytes (ht ▸ h.2)

theorem takes_operator : Takes src AtBinary operator fun t => t.Proper ∧ t.shape.isOperator := by
  intro up s hs hk
  simp [operator]
  let I (w : Token) (t : State) : Prop := Reads src s.arena.size s.opened [] t ∧ Below s.rest.length t ∧ IsOperator w
  refine read_looping (I := I) (J := I) ?_ (fun w t ht => ?_) fun w t ht => ?_
  · grind
  · simp
    split
    · rename_i hc
      have hnext := ht.1.isOperator (by rw [AtBinary, hc.1.2]; rfl)
      simp
      refine ⟨⟨by grind, by grind, by simp [hnext.1], ?_⟩, by grind⟩
      exact forall_mem_append.mpr ⟨ht.2.2.2, hnext.2⟩
    · exact ht
  · simp
    constructor <;> grind

theorem isTyped_of_each (h : Each IsType o) (cs : List Twig) :
    Tree.IsTyped (cs.map Twig.tree) ((trees o ++ cs).map Twig.tree) := by
  cases o with
  | none => exact .untyped _
  | some t => exact .typed (h t rfl).2 _

theorem proper_of_each (h : Each (fun t => t.Proper ∧ Q t) o) : ∀ t ∈ trees o, t.tree.Proper :=
  forall_mem_toList fun t ht => (h t ht).1

theorem forall_of_each {R : Tree → Prop} (h : Each (fun t => Q t ∧ R t) o) : ∀ c ∈ (trees o).map Twig.tree, R c :=
  forall_mem_map.mpr (forall_mem_toList fun t ht => (h t ht).2)

theorem proper_typed (h : ∀ n cs, n.shape.isSymbol → Tree.IsTyped [n] cs → Tree.Admits shape cs)
    (hp : Each IsType p) (ho : One IsName o) : (closed d shape (trees p ++ trees o) s).tree.Proper := by
  obtain ⟨n, rfl, hn⟩ := ho
  exact proper_closed (h n _ hn.2 (isTyped_of_each hp [n])) (forall_mem_append.mpr ⟨proper_of_each hp, by simp [hn.1]⟩)

@[grind .]
theorem proper_parameter (hp : Each IsType p) (ho : One IsName o) :
    (closed d .parameter (trees p ++ trees o) s).tree.Proper := proper_typed (fun _ _ => .parameter) hp ho

@[grind .]
theorem proper_untyped (ho : One IsName o) : (closed d .parameter (trees o) s).tree.Proper :=
  proper_parameter each_none ho

theorem passes_parameter : Passes src Any parameter (Each (Is .parameter)) := by
  intro up s hs _
  have htype := @finds_typeExpression src
  have hname := (@finds_symbol src).required .parameterName
  simp [parameter, expectSymbol]
  split
  · split <;> constructor <;> grind
  · constructor <;> grind

@[grind .]
theorem isPair_closed (ha : IsName a) (ho : H o) : IsPair H (closed d .keywordPair (a :: trees o) s) :=
  ⟨_, a, o, tree_closed _ _ _ _, ha, ho⟩

theorem takes_keywordPair (h : Goes src (Below n) value T H) :
    Takes src (fun s => AtKeyword s ∧ Within n s) (keywordPair value) (IsPair H) := by
  intro up s hs hk
  have hkey : Reads src s.opened.arena.size s.opened.opened [] s.opened.opened.next.next ∧
      Below s.rest.length s.opened.opened.next.next := by grind
  simp [keywordPair]
  constructor <;> grind

theorem goes_pairs (h : Goes src (Below n) value T H) (b : Prop) :
    Goes src (fun s => (b → AtKeyword s) ∧ Within n s) (fun up => many isAtKeyword (keywordPair value up))
      (fun ts => b ∨ ts ≠ []) fun ts => (∀ c ∈ ts, IsPair H c) ∧ (b → ts ≠ []) := by
  intro up s hs hk
  have hpair := takes_keywordPair h
  simp [many]
  let I (ts : List Twig) (t : State) : Prop :=
    Lists src up s (IsPair H) ts t ∧ (ts ≠ [] → Below s.rest.length t) ∧ (b ∧ ts = [] → AtKeyword t)
  refine read_looping (I := I) (J := fun ts t => I ts t ∧ ¬ AtKeyword t) ?_ (fun ts t ht => ?_) fun ts t ht => ?_
  · grind
  · simp
    split
    · have hp := (hpair up).step ht.1.1 (by grind)
      have hall (hc) := forall_mem_concat (ht.1.2 (hp.clean hc).1) (hp.clean hc).2
      simp
      grind
    · grind
  · simp
    constructor <;> grind

@[grind .]
theorem proper_keywordPattern (hne : ts ≠ []) (h : ∀ c ∈ ts, IsPair (One (Is .parameter)) c) :
    (closed d .keywordPattern ts s).tree.Proper :=
  proper_list (.keywordPattern (by simpa using hne)) fun c hc => isPair_of_parameter (h c hc)

theorem goes_keywordPattern (b : Prop) :
    Goes src (fun s => b → AtKeyword s) keywordPattern (fun _ => b) fun t => Is .keywordPattern t := by
  intro up s hs hk
  have hparameter : Goes src (Below (s.rest.length + 1)) _ _ _ :=
    (passes_parameter.required .parameter).mono fun _ _ => True.intro
  have hpairs := goes_pairs hparameter b
  simp [keywordPattern]
  split <;> constructor <;> grind

@[grind .]
theorem proper_wrapsSymbol (h : Tree.wrapsSymbol shape) (ho : One IsName o) :
    (closed d shape (trees o) s).tree.Proper := by
  obtain ⟨n, rfl, hn⟩ := ho
  exact proper_closed (.wrapsSymbol h hn.2) (by simp [hn.1])

@[grind .]
theorem proper_binaryPattern (ha : a.tree.Proper ∧ a.tree.shape.isOperator) (ho : One (Is .parameter) o) :
    (closed d .binaryPattern (a :: trees o) s).tree.Proper := by
  obtain ⟨q, rfl, hq⟩ := ho
  exact proper_closed (.binaryPattern ha.2 hq.2) (by simp [ha.1, hq.1])

theorem takes_pattern : Takes src (fun s => s.kindAt 0 = .symbol ∨ AtBinary s) pattern
    fun t => t.Proper ∧ t.shape.isPattern := by
  intro up s hs hk
  have hkeywords := @goes_keywordPattern src True
  have hname := @takes_symbol src
  have hop := @takes_operator src
  have hparameter := (@passes_parameter src).required .parameter
  simp [pattern]
  split
  · constructor <;> grind
  · split <;> constructor <;> grind

@[grind .]
theorem proper_returnType (ho : One IsType o) : (closed d .returnType (trees o) s).tree.Proper := by
  obtain ⟨t, rfl, ht⟩ := ho
  exact proper_closed (.returnType ht.2) (by simp [ht.1])

theorem passes_returnType : Passes src Any returnType (Each (Is .returnType)) := by
  intro up s hs _
  have htype := (@finds_typeExpression src).required .returnType
  simp [returnType]
  split <;> constructor <;> grind

@[grind .]
theorem proper_signature (ha : a.tree.Proper ∧ a.tree.shape.isPattern) (ho : Each (Is .returnType) o) :
    (closed d .signature (a :: trees o) s).tree.Proper :=
  proper_closed (.signature ha.2 (forall_of_each ho))
    (forall_mem_cons.mpr ⟨ha.1, proper_of_each ho⟩)

theorem finds_signature : Finds src Any signature (Is .signature) := by
  intro up s hs _
  have hpattern := @takes_pattern src
  have hreturn := @passes_returnType src
  simp [signature]
  split <;> constructor <;> grind

/-! ### Expressions -/

def IsLiteral (shape : Shape) : Prop := Tree.isLeaf shape ∧ shape.isExpression

attribute [local grind] IsLiteral

theorem goes_number (up : Nat) (h : word.span.Lies src) (digits : Bytes) (negative : Bool) :
    GoesBelow src up Any (number word digits negative) (fun _ => False) IsLiteral := by
  intro s hs _
  cases hd : Numeral.parse digits <;> simp [number, hd] <;> split <;> constructor <;> grind

theorem goes_literalShape (up : Nat) (h : word.span.Lies src) :
    GoesBelow src up Any (literalShape word) (fun _ => False) IsLiteral := by
  intro s hs _
  have hnumber := goes_number up h word.text false
  simp [literalShape]
  split
  · simp
    split <;> constructor <;> grind
  · simp
    split <;> split <;> constructor <;> grind
  · constructor <;> grind
  · exact hnumber s hs True.intro

theorem takes_literal : Takes src (fun s => s.kindAt 0 ≠ .eof) literal IsExpression := by
  intro up s hs hk
  have hshape := goes_literalShape s.arena.size (hs.steady.word 0).1
  simp [literal]
  constructor <;> grind

theorem takes_negativeNumber : Takes src (fun s => s.kindAt 0 ≠ .eof) negativeNumber IsExpression := by
  intro up s hs hk
  have hnext := hs.opened.next.1
  have hword : Span.Lies src ⟨(s.word 0).span.uri, (s.word 0).span.start, (s.opened.next.word 0).span.stop⟩ :=
    ⟨hs.lies.uri, hs.lies.first, Int.le_trans hnext.forth.1 hnext.lies.order, hnext.lies.last⟩
  have hnumber (w : Token) (hw : w.span.Lies src) :=
    goes_number s.arena.size hw (s.opened.next.word 0).text true
  simp [negativeNumber]
  constructor <;> grind

theorem takes_unaryMessage : Takes src (At .symbol) unaryMessage IsMessage := by
  intro up s hs hk
  have hname := @takes_symbol src
  simp [unaryMessage]
  constructor <;> grind

@[grind .]
theorem proper_send (ha : IsExpression a) (hb : IsMessage b) : (closed d .send [a, b] s).tree.Proper :=
  proper_closed (.send ha.2 hb.2) (by simp [ha.1, hb.1])

theorem ends_sendTo {message : Nat → Reader Twig} {P : State → Prop} (hP : ∀ t a, P t → P (t.keep a))
    (hm : Takes src P message IsMessage) (hs : Reads src up s [] s) (hr : Reads src up s [a] t) (hp : P t)
    (ha : t.Clean → IsExpression a) : Ends src up s t [] (fun _ => True) (fun e : Twig => IsExpression e)
      (read (sendTo up (s.word 0).span.start a message) t) := by
  have hmessage := hm t.arena.size (t.adopting [a]) (.refl (hr.steady.keep _)) (hP _ _ (hP _ _ hp))
  have hwrap := hr.wrap hs.steady (by simpa using hmessage.reads) .send
  simp [sendTo]
  constructor <;> grind

theorem finds_sendChain {receiver : Nat → Reader (Option Twig)} {more : Reader Bool} {message : Nat → Reader Twig}
    {g : State → Bool} (hr : Finds src (Below n) receiver IsExpression) (hmore : ∀ t, read more t = (g t, t))
    (hg : ∀ t a, g (t.keep a) = g t) (hm : Takes src (fun t => g t ∧ Below n t) message IsMessage) :
    Finds src (Below n) (sendChain receiver more message) IsExpression := by
  intro up s hs hn
  simp [sendChain]
  cases ho : (read (receiver up) s).1 with
  | none =>
    constructor <;> grind
  | some r =>
    simp
    let I (r : Twig) (t : State) : Prop :=
      Reads src up s [r] t ∧ Below s.rest.length t ∧ (t.Clean → IsExpression r)
    refine read_looping (I := I) (J := I) ?_ (fun r t ht => ?_) fun r t ht => ?_
    · grind
    · simp [hmore]
      split
      · have hsend := ends_sendTo (by grind) hm hs ht.1 (by grind) ht.2.2
        simp
        grind
      · exact ht
    · constructor <;> grind

@[grind .]
theorem proper_binaryMessage (ha : a.tree.Proper ∧ a.tree.shape.isOperator) (ho : One IsExpression o) :
    (closed d .binaryMessage (a :: trees o) s).tree.Proper := by
  obtain ⟨e, rfl, he⟩ := ho
  exact proper_closed (.binaryMessage ha.2 he.2) (by simp [ha.1, he.1])

@[grind .]
theorem proper_keywordMessage (hne : ts ≠ []) (h : ∀ c ∈ ts, IsPair (One IsExpression) c) :
    (closed d .keywordMessage ts s).tree.Proper :=
  proper_list (.keywordMessage (by simpa using hne)) fun c hc => isPair_of_expression (h c hc)

@[grind .]
theorem proper_cascade (ha : IsExpression a) (hsend : a.shape = .send) (h : ∀ c ∈ ts, IsMessage c) :
    (closed d .cascade (a.children ++ ts) s).tree.Proper := by
  obtain ⟨e, m, hcs, he, hm⟩ := Tree.Proper.of_send ha.1 (a.shape_tree.trans hsend)
  rw [Twig.children_tree] at hcs
  have hall : ∀ c ∈ a.children, c.tree.Proper := by
    rw [← forall_mem_map (f := Twig.tree) (P := Tree.Proper), hcs]
    simp [he.1, hm.1]
  refine proper_closed ?_ (forall_mem_append.mpr ⟨hall, fun c hc => (h c hc).1⟩)
  rw [map_append, hcs]
  exact .cascade he.2 (forall_mem_cons.mpr ⟨hm.2, forall_mem_map.mpr fun c hc => (h c hc).2⟩)

section

variable (h : Finds src (Below n) primary IsExpression)
include h

theorem finds_unaryExpression : Finds src (Below n) (unaryExpression primary) IsExpression :=
  finds_sendChain h (fun t => by simp [isAtUnary]; rfl) (fun _ _ => rfl) (takes_unaryMessage.mono (by grind))

theorem takes_binaryMessage : Takes src (fun s => AtBinary s ∧ Below n s) (binaryMessage primary) IsMessage := by
  intro up s hs hk
  have hop := @takes_operator src
  have hoperand := (finds_unaryExpression h).required .expression
  simp [binaryMessage]
  constructor <;> grind

theorem finds_binaryExpression : Finds src (Below n) (binaryExpression primary) IsExpression :=
  finds_sendChain (finds_unaryExpression h) (fun _ => read_isAtBinary _) (fun _ _ => rfl) (takes_binaryMessage h)

theorem takes_keywordMessage : Takes src (fun s => AtKeyword s ∧ Below n s) (keywordMessage primary) IsMessage := by
  intro up s hs hk
  have hargument : Goes src (Below n) (argument primary) _ _ := (finds_binaryExpression h).required .expression
  have hpairs := goes_pairs hargument True
  simp [keywordMessage]
  constructor <;> grind

theorem finds_keywordExpression : Finds src (Below n) (keywordExpression primary) IsExpression := by
  intro up s hs hn
  have hbinary := finds_binaryExpression h
  have hmessage := takes_keywordMessage h
  simp [keywordExpression]
  cases ho : (read (binaryExpression primary up) s).1 with
  | none => constructor <;> grind
  | some r =>
    simp
    split
    · have hr := hbinary up s hs hn
      have hsend := ends_sendTo (a := r) (fun _ _ h => h) hmessage hs (by simpa [ho] using hr.reads)
      constructor <;> grind
    · constructor <;> grind

theorem passes_cascaded : Passes src (Below n) (cascaded primary) (One IsMessage) := by
  intro up s hs hn
  have hkeyword := takes_keywordMessage h
  have hunary := @takes_unaryMessage src
  have hbinary := takes_binaryMessage h
  simp [cascaded]
  split
  · constructor <;> grind
  split
  · constructor <;> grind
  split <;> constructor <;> grind

theorem ends_cascade (hr : Reads src up s [a] t) (hn : Below n t) (ha : t.Clean → IsExpression a) :
    Ends src up s t [] (fun _ => False) (fun e : Twig => IsExpression e) (read (cascade primary up a) t) := by
  have hmessage := passes_cascaded h
  unfold cascade
  split
  · let v := (t.adopting a.children).keep ((t.adopting a.children).arena.remove a.id)
    let I (ts : List Twig) (u : State) : Prop := Lists src t.arena.size v IsMessage ts u
    simp
    refine read_looping (I := I) (J := I) ?_ (fun ts u hu => ?_) fun ts u hu => ?_
    · exact ⟨.refl (hr.steady.keep _), nofun⟩
    · simp
      split
      · simp
        grind
      · grind
    · have hclosed := hr.reopen hu.1 .cascade
      simp
      constructor <;> grind
  · simp
    constructor <;> grind

theorem finds_expressionWith : Finds src (Below n) (expressionWith primary) IsExpression := by
  intro up s hs hn
  have hkeyword := finds_keywordExpression h
  simp [expressionWith]
  cases ho : (read (keywordExpression primary up) s).1 with
  | none => constructor <;> grind
  | some e =>
    simp
    split
    · have he := hkeyword up s hs hn
      have hcascade := ends_cascade h (s := s) (a := e) (by simpa [ho] using he.reads)
      constructor <;> grind
    · constructor <;> grind

end

@[grind .]
theorem proper_letBinding (hp : Each IsType p) (ho : One IsName o) (hq : One IsExpression q) :
    (closed d .letBinding (trees p ++ (trees o ++ trees q)) s).tree.Proper := by
  obtain ⟨n, rfl, hn⟩ := ho
  obtain ⟨e, rfl, he⟩ := hq
  exact proper_closed (.letBinding hn.2 he.2 (isTyped_of_each hp [n, e]))
    (forall_mem_append.mpr ⟨proper_of_each hp, by simp [hn.1, he.1]⟩)

@[grind .]
theorem proper_untypedBinding (ho : One IsName o) (hq : One IsExpression q) :
    (closed d .letBinding (trees o ++ trees q) s).tree.Proper := proper_letBinding each_none ho hq

theorem ends_letBindingWith {expression : Nat → Reader (Option Twig)} (h : Finds src (Below n) expression IsExpression)
    (hs : Reads src up s [] s) (hr : Reads src s.arena.size s.opened [] t) (hn : Below n t) :
    Ends src up s t [] (fun _ => False) (fun e : Twig => Is .letBinding e)
      (read (letBindingWith expression ⟨s.arena.size, some up, (s.word 0).span.start⟩) t) := by
  have htype := (finds_typeExpression s.arena.size).step hr True.intro
  have hname := (@finds_symbol src).required .bindingName
  have hvalue := h.required .expression
  simp [letBindingWith, expectSymbol]
  split <;> split <;> constructor <;> grind

@[grind .]
theorem proper_letExpression (ha : Is .letBinding a) (ho : One IsExpression o) :
    (closed d .letExpression (a :: trees o) s).tree.Proper := by
  obtain ⟨e, rfl, he⟩ := ho
  exact proper_closed (.letExpression ha.2 he.2) (by simp [ha.1, he.1])

theorem takes_letExpression {expression : Nat → Reader (Option Twig)}
    (h : Finds src (Below n) expression IsExpression) :
    Takes src (fun s => s.kindAt 0 ≠ .eof ∧ Within n s) (letExpression expression) IsExpression := by
  intro up s hs hk
  have hbody := h.required .expression
  have hnext := hs.opened.next.1
  have hstart : Reads src s.arena.size s.opened.next [] s.opened.next := .refl hnext.steady
  have hbinding := ends_letBindingWith h hstart hstart.opened (by grind)
  have hreads := hnext.trans hbinding.reads
  simp [letExpression, expectPeriod]
  constructor <;> grind

@[grind .]
theorem proper_wrapsExpression (h : Tree.wrapsExpression shape) (ho : One IsExpression o) :
    (closed d shape (trees o) s).tree.Proper := by
  obtain ⟨e, rfl, he⟩ := ho
  exact proper_closed (.wrapsExpression h he.2) (by simp [he.1])

theorem finds_primaryWith (h : Finds src (Below n) primary IsExpression) :
    Finds src (Within n) (primaryWith primary) IsExpression := by
  intro up s hs hn
  have hname := @takes_symbol src
  have hliteral := @takes_literal src
  have hnegative := @takes_negativeNumber src
  simp [primaryWith, leaf]
  have hkeyword := (finds_keywordExpression h).required .expression
  have hexpression := (finds_expressionWith h).required .expression
  have hlet := takes_letExpression (finds_expressionWith h)
  split <;> rename_i hk
  all_goals simp [isAtNegative]
  case' h_6 => split
  all_goals constructor <;> grind

theorem finds_primary : Finds src Any Grammar.primary IsExpression := by
  have hnested (depth : Nat) : Finds src (Below depth) (primaryUpTo depth) IsExpression := by
    induction depth with
    | zero => exact fun _ _ _ h => absurd h (Nat.not_lt_zero _)
    | succ depth ih => exact fun up s hs h => finds_primaryWith ih up s hs (Nat.le_of_lt_succ h)
  intro up s hs _
  simp [Grammar.primary]
  exact hnested _ up s hs (Nat.lt_succ_self _)

theorem finds_expression : Finds src Any expression IsExpression := fun up s hs _ =>
  finds_expressionWith (finds_primary.mono fun _ _ => True.intro) up s hs (Nat.lt_succ_self _)

/-! ### Declarations -/

def IsTypeParameter (t : Tree) : Prop := t.Proper ∧ t.shape.isTypeParameter

attribute [local grind] IsTypeParameter

theorem passes_typeParameter : Passes src Any typeParameter (Each IsTypeParameter) := by
  intro up s hs _
  have hname := (@finds_symbol src).required .typeParameterName
  simp [typeParameter, expectSymbol]
  split
  · constructor <;> grind
  · split <;> constructor <;> grind

@[grind .]
theorem proper_typeParameterList (h : ∀ c ∈ ts, IsTypeParameter c) : (closed d .typeParameterList ts s).tree.Proper :=
  proper_list .typeParameterList h

theorem takes_typeParameterList : Takes src (At .openAngle) typeParameterList (Is .typeParameterList) := by
  intro up s hs hk
  have hparameter := @passes_typeParameter src
  simp [typeParameterList]
  let I (ts : List Twig) (t : State) : Prop :=
    Lists src s.arena.size s.opened IsTypeParameter ts t ∧ Below s.rest.length t
  refine read_looping (I := I) (J := I) ?_ (fun ts t ht => ?_) fun ts t ht => ?_
  · grind
  · simp
    split
    · exact ht
    · split <;> simp
      · grind
      · split <;> grind
  · simp
    constructor <;> grind

@[grind .]
theorem proper_isDirective (ho : One IsType o) : (closed d .isDirective (trees o) s).tree.Proper := by
  obtain ⟨t, rfl, ht⟩ := ho
  exact proper_closed (.isDirective ht.2) (by simp [ht.1])

theorem takes_isMember : Takes src (At .kwIs) isMember IsMember := by
  intro up s hs hk
  have htype := (@finds_typeExpression src).required .typeExpression
  simp [isMember, expectPeriod]
  constructor <;> grind

theorem passes_methodBody : Passes src Any methodBody (Each (Is .methodBody)) := by
  intro up s hs _
  have hbody := (@finds_expression src).required .expression
  simp [methodBody]
  split <;> constructor <;> grind

@[grind .]
theorem proper_variable (hp : Each IsType p) (ho : One IsName o) :
    (closed d (.variableNode v) (trees p ++ trees o) s).tree.Proper := proper_typed (fun _ _ => .variableNode) hp ho

@[grind .]
theorem proper_initializer (ha : Is .keywordPattern a) (h : ∀ c ∈ ts, IsPair (Each IsExpression) c) :
    (closed d (.initializer v) (a :: ts) s).tree.Proper :=
  proper_closed (.initializer ha.2 (forall_mem_map.mpr fun c hc => (isPair_of_assignment (h c hc)).2))
    (forall_mem_cons.mpr ⟨ha.1, fun c hc => (isPair_of_assignment (h c hc)).1⟩)

@[grind .]
theorem proper_method {isNative : Bool} (ho : One (Is .signature) o) (hp : Each (Is .methodBody) p) :
    (closed d (.method v isNative) (trees o ++ trees p) s).tree.Proper := by
  obtain ⟨a, rfl, ha⟩ := ho
  exact proper_closed (.method ha.2 (forall_of_each hp))
    (forall_mem_cons.mpr ⟨ha.1, proper_of_each hp⟩)

section

variable {v : Visibility} (hs : Reads src up s [] s)
include hs

theorem ends_variableMember (hr : Reads src s.arena.size s.opened [] t) (hk : t.kindAt 0 ≠ .eof) :
    Ends src up s s [] (fun _ => True) (fun m : Twig => IsMember m)
      (read (variableMember ⟨s.arena.size, some up, (s.word 0).span.start⟩ v) t) := by
  have htype := @finds_typeExpression src
  have hname := (@finds_symbol src).required .variableName
  simp [variableMember, expectSymbol, expectPeriod]
  constructor <;> grind

theorem ends_initializer (hu : Reads src s.arena.size s.opened (a :: ts) u) (hlt : Below s.rest.length u)
    (hc : u.Clean → Is .keywordPattern a ∧ ∀ c ∈ ts, IsPair (Each IsExpression) c) :
    Ends src up s s [] (fun _ => True) (fun m : Twig => IsMember m)
      (read (close ⟨s.arena.size, some up, (s.word 0).span.start⟩ (.initializer v) (a :: ts))
        (read expectPeriod u).2) := by
  simp [expectPeriod]
  constructor <;> grind

theorem ends_initializerMember (hr : Reads src s.arena.size s.opened [] t) (hk : t.kindAt 0 ≠ .eof) :
    Ends src up s s [] (fun _ => True) (fun m : Twig => IsMember m)
      (read (initializerMember ⟨s.arena.size, some up, (s.word 0).span.start⟩ v) t) := by
  have hpattern := @goes_keywordPattern src False
  have hvalue : Finds src (Below s.rest.length) (binaryExpression Grammar.primary) IsExpression :=
    finds_binaryExpression (finds_primary.mono fun _ _ => True.intro)
  have hpairs := goes_pairs hvalue False
  simp only [initializerMember, read_bind, read_discard, read_advance, read_ite, read_pure, read_miss]
  split
  · split <;> apply ends_initializer hs <;> grind
  · apply ends_initializer hs <;> grind

theorem ends_methodRest {isNative : Bool} (hu : Reads src s.arena.size s.opened (trees o) u)
    (hlt : Below s.rest.length u) (hc : u.Clean → One (Is .signature) o) :
    Ends src up s s [] (fun o => o.isSome) (Each IsMember) (read (do
      let body ← methodBody s.arena.size
      if let some e := body then
        if isNative then remark e.span .nativeBody
      expectPeriod
      return some (← close ⟨s.arena.size, some up, (s.word 0).span.start⟩ (.method v isNative)
        (o.toList ++ body.toList))) u) := by
  have hb := (passes_methodBody _).step hu True.intro
  simp [expectPeriod]
  cases hbody : (read (methodBody s.arena.size) u).1 with
  | none =>
    simp
    constructor <;> grind
  | some b =>
    have hspan := (Tree.lies_of_isSound (hb.reads.sound b (by simp [hbody]))).1
    rw [Twig.span_tree] at hspan
    simp
    split <;> constructor <;> grind

theorem ends_methodMember (hr : Reads src s.arena.size s.opened [] t) (hv : v = .unmarked ∨ Below s.rest.length t) :
    Ends src up s s [] (fun o => o.isSome) (Each IsMember)
      (read (methodMember ⟨s.arena.size, some up, (s.word 0).span.start⟩ v) t) := by
  have hsignature := @finds_signature src
  simp only [methodMember]
  rw [read_bind, read_bind, read_ite]
  cases ho : (read (signature s.arena.size) (read (eat .kwNative) t).2).1 with
  | none =>
    simp only [Option.isNone_none, ↓reduceIte, read_ite]
    split
    · constructor <;> grind
    · rw [read_bind, read_miss]
      apply ends_methodRest hs <;> grind
  | some a =>
    simp only [Option.isNone_some, Bool.false_eq_true, ↓reduceIte]
    apply ends_methodRest hs <;> grind

end

instance : Bears Visibility := ⟨fun _ => []⟩

@[simp, grind =]
theorem trees_visibility (v : Visibility) : trees v = [] := rfl

theorem goes_visibility : Goes src Any (fun _ => visibility) (· ≠ .unmarked) fun _ => True := by
  intro up s hs _
  simp [visibility]
  split
  · constructor <;> grind
  · split <;> constructor <;> grind

theorem finds_member : Finds src Any member IsMember := by
  intro up s hs _
  have his := @takes_isMember src
  have hv := (goes_visibility _).step hs.opened True.intro
  have hr : Reads src s.arena.size s.opened [] (read visibility s.opened).2 := by grind
  simp [member]
  split
  · constructor <;> grind
  split
  · have hvariable := ends_variableMember (v := (read visibility s.opened).1) hs hr (by grind)
    constructor <;> grind
  split
  · have hinitializer := ends_initializerMember (v := (read visibility s.opened).1) hs hr (by grind)
    constructor <;> grind
  · exact ends_methodMember hs hr (by grind)

theorem lists_manyUntil {G : Tree → Prop} {ks : List Token.Kind} {part : Nat → Reader (Option Twig)}
    (h : Finds src Any part G) (hk : .eof ∈ ks) (what : Expected) (hs : Reads src up s [] s) :
    Lists src up s G (read (manyUntil ks (part up) what) s).1 (read (manyUntil ks (part up) what) s).2 ∧
      (read (manyUntil ks (part up) what) s).2.kindAt 0 ∈ ks := by
  simp only [manyUntil, read_loop]
  let I (ts : List Twig) (t : State) : Prop := Lists src up s G ts t
  refine read_looping (I := I) (J := fun ts t => I ts t ∧ t.kindAt 0 ∈ ks)
    (C := fun p => Lists src up s G p.1 p.2 ∧ p.2.kindAt 0 ∈ ks) ?_ (fun ts t ht => ?_) fun ts t ht => ?_
  · grind
  · simp
    split
    · exact ⟨ht, ‹_›⟩
    · have hp := (h up).step ht.1 True.intro
      have hpos : t.kindAt 0 ≠ .eof := by grind
      split <;> rename_i ho <;> simp
      · grind
      · grind
  · exact ht

@[grind .]
theorem proper_classBody (h : ∀ c ∈ ts, IsMember c) : (closed d .classBody ts s).tree.Proper :=
  proper_list .classBody h

theorem takes_classBody : Takes src (At .openCurly) classBody (Is .classBody) := by
  intro up s hs hk
  have hmembers : Goes src Any (fun up => manyUntil [.closeCurly, .eof] (member up) .classMember) (fun _ => False)
      fun ts => ∀ c ∈ ts, IsMember c := fun up s hs _ => by
    have hlists := (lists_manyUntil finds_member (show Token.Kind.eof ∈ [.closeCurly, .eof] by simp) .classMember hs).1
    constructor <;> grind
  simp [classBody]
  constructor <;> grind

@[grind .]
theorem proper_class (ho : One IsName o) (hp : Each (Is .typeParameterList) p)
    (h : ∀ c ∈ ts, Is .classBody c) : (closed d (.classNode isPartial) (trees o ++ (trees p ++ ts)) s).tree.Proper := by
  obtain ⟨n, rfl, hn⟩ := ho
  have hparts : ∀ c ∈ trees p ++ ts, c.tree.Proper :=
    forall_mem_append.mpr ⟨proper_of_each hp, fun c hc => (h c hc).1⟩
  refine proper_closed ?_ (forall_mem_cons.mpr ⟨hn.1, hparts⟩)
  rw [map_append, map_append]
  change Tree.Admits _ (n.tree :: ((trees p).map Twig.tree ++ ts.map Twig.tree))
  exact .classNode hn.2 (forall_of_each hp) (forall_mem_map.mpr fun c hc => (h c hc).2)

@[grind .]
theorem proper_bodiless (ho : One IsName o) (hp : Each (Is .typeParameterList) p) :
    (closed d (.classNode isPartial) (trees o ++ trees p) s).tree.Proper := by
  simpa using proper_class ho hp (show ∀ c ∈ ([] : List Twig), Is .classBody c from nofun)

theorem ends_classRest (hs : Reads src up s [] s) (hu : Reads src s.arena.size s.opened (trees o ++ trees p) u)
    (hlt : Below s.rest.length u) (hc : u.Clean → One IsName o ∧ Each (Is .typeParameterList) p) :
    Ends src up s s [] (fun _ => True) (fun c : Twig => IsDeclaration c) (read (do
      let body ← do
        if ← isAt .openCurly then some <$> classBody s.arena.size
        else
          if !(← eat .period) then miss .classBody
          pure none
      close ⟨s.arena.size, some up, (s.word 0).span.start⟩ (.classNode isPartial)
        (o.toList ++ p.toList ++ body.toList)) u) := by
  have hbody := @takes_classBody src
  simp
  split
  · constructor <;> grind
  · split <;> constructor <;> grind

theorem takes_classDeclaration : Takes src (fun s => s.kindAt 0 = .kwPartial ∨ s.kindAt 0 = .kwClass) classDeclaration
    IsDeclaration := by
  intro up s hs hk
  have hname := (@finds_symbol src).required .className
  have hparameters := @takes_typeParameterList src
  simp only [classDeclaration, expectSymbol]
  rw [read_bind, read_bind, read_bind, read_bind, read_bind, read_isAt, read_ite]
  simp only [read_openNode, read_discard]
  split
  · rw [read_bind, read_map]
    apply ends_classRest hs <;> grind
  · rw [read_bind, read_pure]
    apply ends_classRest hs <;> grind

theorem takes_globalBinding : Takes src (At .kwLet) globalBinding IsDeclaration := by
  intro up s hs hk
  have hbinding := ends_letBindingWith (finds_expression.mono fun _ _ => True.intro) hs hs.opened.next.1
    (Nat.lt_succ_self _)
  simp [globalBinding, expectPeriod]
  constructor <;> grind

@[grind .]
theorem proper_exported (ho : One (fun t => t.Proper ∧ (t.shape.isClass ∨ t.shape = .letBinding)) o) :
    (closed d .exported (trees o) s).tree.Proper := by
  obtain ⟨d, rfl, hd⟩ := ho
  exact proper_closed (.exported hd.2) (by simp [hd.1])

theorem finds_declaration : Finds src Any declaration IsDeclaration := by
  have hnested (depth : Nat) : Finds src (Below depth) (declarationUpTo depth) IsDeclaration := by
    induction depth with
    | zero => exact fun _ _ _ h => absurd h (Nat.not_lt_zero _)
    | succ depth ih =>
      intro up s hs hn
      have hclass := @takes_classDeclaration src
      have hbinding := @takes_globalBinding src
      have hinner := ih.required .exportedDeclaration
      simp [declarationUpTo]
      split
      · have hd := (hinner _).step hs.opened.next.1 (by grind)
        simp
        cases ho : (read (required .exportedDeclaration (declarationUpTo depth s.arena.size)) s.opened.next).1 with
        | none =>
          simp
          constructor <;> grind
        | some d =>
          have hspan := (Tree.lies_of_isSound (hd.reads.sound d (by simp [ho]))).1
          rw [Twig.span_tree] at hspan
          simp
          split <;> constructor <;> grind
      all_goals simp; constructor <;> grind
  intro up s hs _
  simp [declaration]
  exact hnested _ up s hs (Nat.lt_succ_self _)

/-! ### Whole texts -/

@[grind .]
theorem proper_qualifiedSymbol (hne : ts ≠ []) (h : ∀ c ∈ ts, IsName c) :
    (closed d .qualifiedSymbol ts s).tree.Proper :=
  proper_list (.qualifiedSymbol (by simpa using hne)) h

theorem passes_qualifiedSymbol : Passes src Any qualifiedSymbol (One (Is .qualifiedSymbol)) := by
  intro up s hs _
  have hfirst := @takes_symbol src
  have hname := (@finds_symbol src).required .symbolAfterSlash
  simp [qualifiedSymbol, expectSymbol]
  split
  · let I (ts : List Twig) (t : State) : Prop :=
      Lists src s.arena.size s.opened IsName ts t ∧ Below s.rest.length t ∧ (t.Clean → ts ≠ [])
    refine read_looping (I := I) (J := I) ?_ (fun ts t ht => ?_) fun ts t ht => ?_
    · grind
    · simp
      split
      · grind
      · split <;> simp <;> grind
    · simp
      constructor <;> grind
  · constructor <;> grind

@[grind .]
theorem proper_namespace (ho : One (Is .qualifiedSymbol) o) :
    (closed d .namespaceDirective (trees o) s).tree.Proper := by
  obtain ⟨q, rfl, hq⟩ := ho
  exact proper_closed (.namespaceDirective hq.2) (by simp [hq.1])

theorem takes_namespaceDirective : Takes src (At .kwNamespace) namespaceDirective IsTopLevel := by
  intro up s hs hk
  have hname := @passes_qualifiedSymbol src
  simp [namespaceDirective, expectPeriod]
  constructor <;> grind

@[grind .]
theorem proper_import (ho : One (Is .qualifiedSymbol) o) (hp : Each IsName p) :
    (closed d .importDirective (trees o ++ trees p) s).tree.Proper := by
  obtain ⟨q, rfl, hq⟩ := ho
  exact proper_closed (.importDirective hq.2 (forall_of_each hp))
    (forall_mem_cons.mpr ⟨hq.1, proper_of_each hp⟩)

@[grind .]
theorem proper_plainImport (ho : One (Is .qualifiedSymbol) o) :
    (closed d .importDirective (trees o) s).tree.Proper := by
  simpa using proper_import ho each_none

theorem takes_importDirective : Takes src (At .kwImport) importDirective (Is .importDirective) := by
  intro up s hs hk
  have hname := (passes_qualifiedSymbol s.arena.size).step hs.opened.next.1 True.intro
  have halias := (@finds_symbol src).required .importAlias
  simp [importDirective, expectSymbol, expectPeriod]
  split <;> constructor <;> grind

theorem goes_endStatement : Goes src Any (fun _ => endStatement) (fun _ => False) fun _ => True := by
  intro up s hs _
  simp [endStatement, expectPeriod]
  split <;> constructor <;> grind

theorem takes_lineDirective : Takes src (At .colon) lineDirective IsStatement := by
  intro up s hs hk
  have hexpression := (@finds_expression src).required .expression
  have hend := @goes_endStatement src s.arena.size
  have hnext := hs.opened.next
  have hword := hnext.1.lies
  have hname : Reads src s.arena.size s.opened [] (read (expect .symbol .directiveName) s.opened.next).2 := by grind
  simp [lineDirective]
  split
  · split <;> constructor <;> grind
  · constructor <;> grind

@[grind .]
theorem proper_lineExpression (ha : IsExpression a) : (closed d .lineExpression [a] s).tree.Proper :=
  proper_closed (.wrapsExpression rfl ha.2) (by simp [ha.1])

theorem finds_lineExpression : Finds src Any lineExpression IsStatement := by
  intro up s hs _
  have hexpression := @finds_expression src
  have hend := @goes_endStatement src up
  simp [lineExpression]
  cases ho : (read (expression s.arena.size) s.opened).1 with
  | none => constructor <;> grind
  | some e =>
    simp
    constructor <;> grind

theorem finds_statement : Finds src Any statement IsStatement := by
  intro up s hs _
  have hdirective := @takes_lineDirective src
  have himport := @takes_importDirective src
  have hdeclaration : Finds src Any declaration IsStatement :=
    finds_declaration.weaken fun _ h t ht => (h t ht).statement
  have hexpression := @finds_lineExpression src
  simp [statement]
  split <;> (try simp only [read_map]) <;> constructor <;> grind

theorem lists_lineParts (hs : Reads src up s [] s) :
    Lists src up s IsStatement (read (lineParts up) s).1 (read (lineParts up) s).2 ∧
      (read (lineParts up) s).2.kindAt 0 = .eof := by
  have hlists := lists_manyUntil finds_statement (show Token.Kind.eof ∈ [.eof] by simp) .expression hs
  exact ⟨hlists.1, mem_singleton.mp hlists.2⟩

def Parts (src : Source) (up : Nat) (s : State) (o : Option Twig) (p : List Twig × List Twig) (t : State) : Prop :=
  Lists src up s IsTopLevel (trees o ++ (p.1 ++ p.2)) t

theorem Parts.import {is ds : List Twig} {x : Twig × State} (h : Parts src up s o (is, ds) t)
    (ha : Ends src up s t (trees o ++ (is ++ ds)) (fun _ => True) (fun c : Twig => IsTopLevel c) x) :
    Parts src up s o (is ++ [x.1], ds) x.2 := by
  have hperm : trees o ++ (is ++ ds) ++ [x.1] ~ trees o ++ (is ++ [x.1] ++ ds) := by
    simpa using (perm_append_singleton x.1 ds).append_left is |>.append_left (trees o)
  refine ⟨ha.reads.perm hperm, fun hc c hmem => ?_⟩
  obtain hmem | hmem := mem_append.mp (hperm.mem_iff.mpr hmem)
  · exact h.2 (ha.clean hc).1 c hmem
  · exact mem_singleton.mp hmem ▸ (ha.clean hc).2

theorem lists_moduleParts (hs : Reads src up s [] s) :
    Lists src up s IsTopLevel (read (moduleParts up) s).1 (read (moduleParts up) s).2 ∧
      (read (moduleParts up) s).2.kindAt 0 = .eof := by
  have hnamespace := @takes_namespaceDirective src
  have himport : Takes src (At .kwImport) importDirective IsTopLevel :=
    takes_importDirective.weaken fun t h => ⟨h.1, by rw [h.2]; rfl⟩
  have hdeclaration : Finds src Any declaration IsTopLevel := finds_declaration.weaken fun _ h t ht => (h t ht).topLevel
  let C (p : List Twig × State) : Prop := Lists src up s IsTopLevel p.1 p.2 ∧ p.2.kindAt 0 = .eof
  let o := if s.kindAt 0 = .kwNamespace then some (read (namespaceDirective up) s).1 else none
  change C (read (moduleParts up) s)
  simp [moduleParts]
  split <;> rename_i hk
  all_goals
    refine read_looping (I := Parts src up s o) (J := fun p t => Parts src up s o p t ∧ t.kindAt 0 = .eof) (C := C) ?_
      (fun p t ht => ?_) fun p t ht => by simpa [C, Parts, o, hk] using ht
    · simp [Parts, o, hk]
      grind
    · obtain ⟨is, ds⟩ := p
      simp
      split
      · exact ⟨ht, ‹_›⟩
      · simp
        have hi := (himport up).step ht.1 ‹_›
        exact ⟨ht.import hi, hi.takes True.intro⟩
      · have hr := ht.1.remark (m := .lateNamespace) ht.1.spot
        have hn := (hnamespace up).step hr.1 (hr.2.2.2.trans ‹_›)
        simp
        refine ⟨⟨hn.reads.drop, fun hc => ?_⟩, hr.2.2.1 ▸ hn.takes True.intro⟩
        exact absurd (hn.clean ((State.clean_keep _ _).mp hc)).1 hr.2.1
      · have hd := (hdeclaration up).step ht.1 True.intro
        have hpos := ht.1.pos (by assumption)
        simp
        split <;> rename_i ho <;> simp
        · refine ⟨⟨by simpa [ho] using hd.reads, fun hc => ?_⟩, hd.takes (by simp [ho])⟩
          simpa using forall_mem_concat (ht.2 (hd.clean hc).1) ((hd.clean hc).2 _ ho)
        · have hreads := hd.reads
          rw [ho, trees_none, append_nil] at hreads
          have hr := hreads.remark (m := .missing .declaration) hreads.spot
          have hnext := hr.1.next
          refine ⟨⟨hnext.1, fun hc => absurd (hnext.2.2 hc) hr.2.1⟩, ?_⟩
          grind

end Grammar

end Parlance
