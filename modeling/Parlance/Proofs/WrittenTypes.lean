import Mathlib.Logic.Relation
import Parlance.Proofs.Scopes
import Parlance.Typing
/-!
What a written type means follows from the names in it, unless one of them is that of a binding.
-/
namespace Parlance

open List

/-! ### Types of a program -/

namespace Ty

def classId? : Ty → Option Nat
  | object _ id _ => some id
  | _ => none

def IsPlain (t : Ty) : Prop := t = unknown ∨ t.classId?.isSome

/-- The type speaks of classes of the program only, and `Self` is one of them. -/
inductive Over (p : Program) : Ty → Prop where
  | unknown : Over p unknown
  | self {t} (h : Over p t) (hp : t.IsPlain) : Over p (self t)
  | object {name c args} (hc : p.Has c) (ha : ∀ t ∈ args, Over p t) : Over p (object name c.id args)
  | classObject {name c args} (hc : p.Has c) (ha : ∀ t ∈ args, Over p t) : Over p (classObject name c.id args)
  | parameter {name id args} (ha : ∀ t ∈ args, Over p t) : Over p (parameter name id args)
  | symbol (value : String) : Over p (symbol value)
  | integerLiteral : Over p integerLiteral
  | floatLiteral : Over p floatLiteral
  | behaviour {method receiver result form parts args} (hr : Over p receiver) (ha : ∀ t ∈ args, Over p t)
    (hs : Over p result) : Over p (behaviour method receiver form parts args result)

variable {p : Program} {t : Ty} {args : List Ty} {m : Substitution} {P : Ty → Prop} {S : Nat → Prop}

theorem substAll_eq_map (m : Substitution) (ts : List Ty) : substAll m ts = ts.map (subst m) := by
  induction ts with
  | nil => rfl
  | cons t ts ih => rw [substAll, ih, map_cons]

mutual

theorem subst_nil : (t : Ty) → t.subst [] = t
  | unknown | symbol _ | integerLiteral | floatLiteral => rfl
  | self t => by rw [subst, subst_nil t]
  | object _ _ args | classObject _ _ args => by rw [subst, substAll_nil args]
  | parameter _ _ args => by rw [subst, lookup_nil, substAll_nil args]
  | behaviour _ receiver _ _ args result => by rw [subst, subst_nil receiver, substAll_nil args, subst_nil result]

theorem substAll_nil : (ts : List Ty) → substAll [] ts = ts
  | [] => rfl
  | t :: ts => by rw [substAll, subst_nil t, substAll_nil ts]

end

/-- One substitution and then another: what the first puts in is gone through by the second. -/
def Substitution.andThen (m m' : Substitution) : Substitution := m.map (fun e => (e.1, e.2.subst m')) ++ m'

theorem lookup_andThen (m m' : Substitution) (id : Nat) :
    (m.andThen m').lookup id = ((m.lookup id).map (subst m')).or (m'.lookup id) := by
  induction m with
  | nil => rfl
  | cons e m ih =>
    unfold Substitution.andThen at ih ⊢
    rw [map_cons, cons_append, lookup_cons, lookup_cons, ih]
    cases id == e.1 <;> rfl

mutual

theorem subst_subst (m m' : Substitution) : (t : Ty) → (t.subst m).subst m' = t.subst (m.andThen m')
  | unknown | symbol _ | integerLiteral | floatLiteral => rfl
  | self t => by rw [subst, subst, subst, subst_subst m m' t]
  | object _ _ args | classObject _ _ args => by rw [subst, subst, subst, substAll_substAll m m' args]
  | parameter name id args => by
    rw [subst, subst, lookup_andThen]
    cases m.lookup id with
    | some t => rfl
    | none =>
      rw [subst, substAll_substAll m m' args]
      rfl
  | behaviour _ receiver _ _ args result => by
    rw [subst, subst, subst, subst_subst m m' receiver, substAll_substAll m m' args, subst_subst m m' result]

theorem substAll_substAll (m m' : Substitution) : (ts : List Ty) →
    substAll m' (substAll m ts) = substAll (m.andThen m') ts
  | [] => rfl
  | t :: ts => by rw [substAll, substAll, substAll, subst_subst m m' t, substAll_substAll m m' ts]

end

theorem bindSelfAll_eq_map (receiver : Ty) (ts : List Ty) : bindSelfAll receiver ts = ts.map (bindSelf receiver) := by
  induction ts with
  | nil => rfl
  | cons t ts ih => rw [bindSelfAll, ih, map_cons]

theorem IsPlain.subst (h : t.IsPlain) (m : Substitution) : (t.subst m).IsPlain := by
  rcases h with rfl | h
  · exact .inl rfl
  · cases t <;> cases h
    exact .inr rfl

theorem subst_parameter {name : String} {id : Nat} (hm : ∀ e ∈ m, P e.2)
    (h : P (parameter name id (args.map (subst m)))) : P ((parameter name id args).subst m) := by
  rw [subst, substAll_eq_map]
  split
  · rename_i u hu
    exact hm (id, u) (mem_of_lookup hu)
  · exact h

theorem Over.subst (hm : ∀ e ∈ m, e.2.Over p) (h : t.Over p) : (t.subst m).Over p := by
  induction h with
  | unknown => exact .unknown
  | self _ hp ih => exact .self ih (hp.subst m)
  | object hc _ ih =>
    rw [Ty.subst, substAll_eq_map]
    exact .object hc (forall_mem_map.mpr ih)
  | classObject hc _ ih =>
    rw [Ty.subst, substAll_eq_map]
    exact .classObject hc (forall_mem_map.mpr ih)
  | parameter _ ih => exact subst_parameter hm (.parameter (forall_mem_map.mpr ih))
  | symbol value => exact .symbol value
  | integerLiteral => exact .integerLiteral
  | floatLiteral => exact .floatLiteral
  | behaviour _ _ _ ihr iha ihs =>
    rw [Ty.subst, substAll_eq_map]
    exact .behaviour ihr (forall_mem_map.mpr iha) ihs

theorem Over.bindSelf {receiver : Ty} (hr : receiver.Over p) (h : t.Over p) : (Ty.bindSelf receiver t).Over p := by
  induction h with simp only [Ty.bindSelf, bindSelfAll_eq_map]
  | self => exact hr
  | object hc _ ih => exact .object hc (forall_mem_map.mpr ih)
  | parameter _ ih => exact .parameter (forall_mem_map.mpr ih)
  | unknown => exact .unknown
  | classObject hc ha => exact .classObject hc ha
  | symbol value => exact .symbol value
  | integerLiteral => exact .integerLiteral
  | floatLiteral => exact .floatLiteral
  | behaviour hr ha hs => exact .behaviour hr ha hs

theorem Over.withArguments (ha : ∀ u ∈ args, u.Over p) (h : t.Over p) : (t.withArguments args).Over p := by
  cases h with
  | object hc => exact .object hc ha
  | parameter => exact .parameter ha
  | unknown => exact .unknown
  | self h hp => exact .self h hp
  | classObject hc ha => exact .classObject hc ha
  | symbol value => exact .symbol value
  | integerLiteral => exact .integerLiteral
  | floatLiteral => exact .floatLiteral
  | behaviour hr ha hs => exact .behaviour hr ha hs

/-- A type as it is written, of classes in `S`, type parameters and `Self`. -/
inductive MadeOf (S : Nat → Prop) : Ty → Prop where
  | unknown : MadeOf S unknown
  | self {t : Ty} (h : MadeOf S t) : MadeOf S (self t)
  | object {name id args} (hid : S id) (ha : ∀ t ∈ args, MadeOf S t) : MadeOf S (object name id args)
  | parameter {name id args} (ha : ∀ t ∈ args, MadeOf S t) : MadeOf S (parameter name id args)

theorem MadeOf.mono {T : Nat → Prop} (hST : ∀ id, S id → T id) (h : t.MadeOf S) : t.MadeOf T := by
  induction h with
  | unknown => exact .unknown
  | self _ ih => exact .self ih
  | object hid _ ih => exact .object (hST _ hid) ih
  | parameter _ ih => exact .parameter ih

theorem MadeOf.withArguments (ha : ∀ u ∈ args, u.MadeOf S) (h : t.MadeOf S) : (t.withArguments args).MadeOf S := by
  cases h with
  | unknown => exact .unknown
  | self h => exact .self h
  | object hid => exact .object hid ha
  | parameter => exact .parameter ha

theorem classId?_withArguments (t : Ty) (args : List Ty) : (t.withArguments args).classId? = t.classId? := by
  cases t <;> rfl

theorem forall_argument (h : P unknown) (ha : ∀ u ∈ args, P u) (i : Nat) : P (argument args i) := by
  unfold argument
  cases hi : args[i]? with
  | none => exact h
  | some t => exact ha t (mem_of_getElem? hi)

theorem Over.argument (ha : ∀ u ∈ args, u.Over p) (i : Nat) : (argument args i).Over p :=
  forall_argument .unknown ha i

end Ty

/-- A behaviour is that of a node of the program, and its types speak of classes of the program only. -/
structure Behaviour.Over (p : Program) (b : Behaviour) : Prop where
  method : ∃ m, p.Has m ∧ b.method = m.id
  receiver : b.receiver.Over p
  arguments : ∀ t ∈ b.arguments, t.Over p
  result : b.result.Over p

namespace Behaviour

variable {p : Program} {b : Behaviour}

@[simp] theorem selector_subst (m : Ty.Substitution) (b : Behaviour) : (b.subst m).selector = b.selector := rfl

@[simp] theorem selector_bindSelf (receiver : Ty) (b : Behaviour) : (b.bindSelf receiver).selector = b.selector := rfl

theorem subst_subst (b : Behaviour) (m m' : Ty.Substitution) : (b.subst m).subst m' = b.subst (m.andThen m') := by
  simp only [subst, Ty.subst_subst, Ty.substAll_substAll]

@[simp] theorem method_subst (m : Ty.Substitution) (b : Behaviour) : (b.subst m).method = b.method := rfl

@[simp] theorem method_bindSelf (receiver : Ty) (b : Behaviour) : (b.bindSelf receiver).method = b.method := rfl

theorem Over.subst {m : Ty.Substitution} (hm : ∀ e ∈ m, e.2.Over p) (h : b.Over p) : (b.subst m).Over p := by
  refine ⟨h.method, h.receiver.subst hm, ?_, h.result.subst hm⟩
  show ∀ t ∈ Ty.substAll m b.arguments, t.Over p
  rw [Ty.substAll_eq_map]
  exact forall_mem_map.mpr fun t ht => (h.arguments t ht).subst hm

theorem Over.bindSelf {receiver : Ty} (hr : receiver.Over p) (h : b.Over p) : (b.bindSelf receiver).Over p := by
  refine ⟨h.method, hr, ?_, .bindSelf hr h.result⟩
  show ∀ t ∈ Ty.bindSelfAll receiver b.arguments, t.Over p
  rw [Ty.bindSelfAll_eq_map]
  exact forall_mem_map.mpr fun t ht => .bindSelf hr (h.arguments t ht)

end Behaviour

theorem Program.over_substitution {p : Program} {args : List Ty} (ha : ∀ t ∈ args, t.Over p)
    (n : Option Node) : ∀ e ∈ p.substitution n args, e.2.Over p := by
  intro e he
  obtain ⟨i, hi, rfl⟩ := mem_mapIdx.mp he
  exact .argument ha i

namespace Program

variable {p : Program} {n d : Node} {c t a : Node} {k : Nat}

/-- A type that names no binding, nor do its arguments. -/
inductive IsSimple (p : Program) : Node → Prop where
  | self {n : Node} (h : n.shape = .selfType) : IsSimple p n
  | reference {n : Node} (h : n.shape = .typeReference)
    (hd : ∀ d, p.declaration? n .type = some d → d.shape ≠ .letBinding)
    (ha : ∀ a ∈ p.typeArguments n, IsSimple p a) : IsSimple p n

/-- A node whose type is found without looking into the body of a method or a binding. -/
inductive IsLight (p : Program) (n : Node) : Prop where
  | type (h : p.IsSimple n)
  | declaration (h : n.shape.isClass ∨ n.shape.isTypeParameter ∨ n.shape = .importDirective)
  | parameter (h : n.shape = .parameter) (ht : ∀ t, p.type? n = some t → p.IsSimple t)

/-- How many questions about light nodes can be open while one about this node is worked out. -/
def height (p : Program) (n : Node) : Nat :=
  match n.shape with
  | .parameter => p.nodes.size + 3
  | .typeReference | .selfType => 2 + (p.nodes.size - n.id)
  | .classNode _ => 1
  | _ => 0

/-- The class that a class or a type is called by. -/
def denoted? (p : Program) (n : Node) : Option Node :=
  match n.shape with
  | .classNode _ => some n
  | .typeReference => (p.declaration? n .type).filter (·.shape.isClass)
  | _ => none

/-- The classes that a class or a type speaks of, `Self` and the arguments included. -/
def named (p : Program) (n : Node) : List Node :=
  match n.shape with
  | .classNode _ => [n]
  | .typeReference | .selfType =>
    (p.within n).filterMap fun t =>
      if t.shape.isTypeExpression then (p.declaration? t .type).filter (·.shape.isClass) else none
  | _ => []

def Names (p : Program) (n : Node) (id : Nat) : Prop := ∃ c ∈ p.named n, c.id = id

theorem mem_named (h : n.shape.isTypeExpression) :
    c ∈ p.named n ↔ ∃ t ∈ p.within n, t.shape.isTypeExpression ∧ p.declaration? t .type = some c ∧
      c.shape.isClass := by
  have hnamed : p.named n = (p.within n).filterMap fun t =>
      if t.shape.isTypeExpression then (p.declaration? t .type).filter (·.shape.isClass) else none := by
    cases hs : n.shape <;> rw [hs] at h <;> cases h <;> simp only [named, hs]
  simp_all

theorem Has.mem_named (hn : p.Has n) (ht : n.shape.isTypeExpression)
    (hd : p.declaration? n .type = some c) (hc : c.shape.isClass) : c ∈ p.named n :=
  (Program.mem_named ht).mpr ⟨n, hn.mem_within.mpr ⟨hn, Nat.le_refl _, hn.lt_stop⟩, ht, hd, hc⟩

theorem Has.names_typeArgument {id : Nat} (hn : p.Has n) (hs : n.shape.isTypeExpression)
    (ht : t ∈ p.typeArguments n) (h : p.Names t id) : p.Names n id := by
  obtain ⟨hthas, httype, -⟩ := hn.typeArgument ht
  obtain ⟨c, hc, hid⟩ := h
  obtain ⟨k, hk, hrest⟩ := (Program.mem_named httype).mp hc
  refine ⟨c, (Program.mem_named hs).mpr ⟨k, ?_, hrest⟩, hid⟩
  obtain ⟨hkhas, hfirst, hlast⟩ := hthas.mem_within.mp hk
  unfold Forest.typeArguments at ht
  split at ht
  · cases hl : p.part? (· == .typeArgumentList) n with
    | none =>
      rw [hl] at ht
      cases ht
    | some l =>
      rw [hl] at ht
      obtain ⟨hlhas, -, hlfirst, hllast⟩ := hn.child (Forest.part?_mem hl).1
      obtain ⟨-, -, htfirst, htlast⟩ := hlhas.child ht
      exact hn.mem_within.mpr ⟨hkhas, by omega, by omega⟩
  · cases ht

/-! ### What a written type means -/

/-- The type that is written at a node, for a class that of its instances. -/
def writtenIn (p : Program) : Nat → Node → Ty
  | 0, _ => .unknown
  | fuel + 1, n =>
    match n.shape with
    | .selfType =>
      match p.closestClass? n with
      | some c => .self (writtenIn p fuel c)
      | none => .unknown
    | .typeReference =>
      match p.declaration? n .type with
      | some d => (writtenIn p fuel d).withArguments ((p.typeArguments n).map (writtenIn p fuel))
      | none => .unknown
    | .classNode _ =>
      match p.nameOf? n with
      | some name => .object name n.id ((p.typeParameters n).map (writtenIn p fuel))
      | none => .unknown
    | .typeParameter _ =>
      match p.nameOf? n with
      | some name => .parameter name n.id []
      | none => .unknown
    | .parameter =>
      match p.type? n with
      | some t => writtenIn p fuel t
      | none => .unknown
    | _ => .unknown

def written (p : Program) (n : Node) : Ty := writtenIn p (p.height n + 1) n

theorem IsLight.isSimple (h : p.IsLight n) (ht : n.shape.isTypeExpression) : p.IsSimple n := by
  rcases h with h | h | ⟨h, -⟩
  · exact h
  · cases hs : n.shape <;> simp_all [Shape.isClass, Shape.isTypeParameter, Shape.isTypeExpression]
  · rw [h] at ht
    cases ht

theorem IsLight.parameterType (h : p.IsLight n) (hs : n.shape = .parameter)
    (ht : p.type? n = some t) : p.IsSimple t := by
  rcases h with h | h | ⟨-, h⟩
  · cases h with
    | self h =>
      rw [hs] at h
      cases h
    | reference h =>
      rw [hs] at h
      cases h
  · rw [hs] at h
    exact h.elim nofun (·.elim nofun nofun)
  · exact h t ht

theorem IsSimple.declares (hp : p.Grown) (h : p.IsSimple n) (hn : p.Has n)
    (hs : n.shape = .typeReference) (hd : p.declaration? n .type = some d) :
    p.Has d ∧ (d.shape.isClass ∨ d.shape.isTypeParameter ∨ d.shape = .importDirective) := by
  obtain ⟨hhas, hshape | hshape | hshape⟩ := hp.meaning hn hd
  · refine ⟨hhas, ?_⟩
    cases hds : d.shape <;> rw [hds] at hshape <;> cases hshape
    · exact .inl rfl
    · exact .inr (.inl rfl)
  · cases h with
    | self h =>
      rw [hs] at h
      cases h
    | reference _ hnot => exact absurd hshape (hnot d hd)
  · exact ⟨hhas, .inr (.inr hshape)⟩

theorem IsSimple.argument (h : p.IsSimple n) (hs : n.shape = .typeReference)
    (ha : a ∈ p.typeArguments n) : p.IsSimple a := by
  cases h with
  | self h =>
    rw [hs] at h
    cases h
  | reference _ _ hargs => exact hargs a ha

theorem height_lt_of_declares (hn : n.shape.isTypeExpression)
    (h : d.shape.isClass ∨ d.shape.isTypeParameter ∨ d.shape = .importDirective) :
    p.height d < p.height n := by grind [height]

theorem height_lt_typeArgument (hn : p.Has n) (ht : n.shape.isTypeExpression)
    (ha : a ∈ p.typeArguments n) : p.height a < p.height n := by
  obtain ⟨hahas, hatype, hlt⟩ := hn.typeArgument ha
  have hsize := hahas.lt_size
  grind [height]

theorem height_lt_parameter (hn : p.Has n) (hs : n.shape = .parameter) (ht : p.type? n = some t) :
    p.height t < p.height n := by
  have hsize := (hn.part ht).lt_size
  have httype := (Forest.part?_mem ht).2
  grind [height]

theorem height_lt (n : Node) : p.height n < p.nodes.size + 4 := by grind [height]

theorem height_lt_class (hn : p.Has n) (hc : n.shape.isClass) (hd : d ∈ p.typeParameters n) :
    p.height d < p.height n := by
  obtain ⟨-, hs⟩ := Has.typeParameter hn hd
  grind [height]

theorem Grown.closestClass (hp : p.Grown) (hn : p.Has n) (h : p.closestClass? n = some c) :
    p.Has c ∧ c.shape.isClass := by
  have hc := find?_some h
  exact ⟨hp.sown.has_of_mem_upwards hn (mem_of_find?_eq_some h), hc⟩

/-- More patience than needed changes nothing. -/
theorem Grown.writtenIn_eq (hp : p.Grown) {k' : Nat} (hn : p.Has n) (hl : p.IsLight n)
    (hk : p.height n < k) (hk' : p.height n < k') : p.writtenIn k n = p.writtenIn k' n := by
  induction k generalizing n k' with
  | zero => omega
  | succ k ih =>
    obtain ⟨k', rfl⟩ : ∃ j, k' = j + 1 := ⟨k' - 1, by omega⟩
    cases hs : n.shape with
    | selfType =>
      simp only [writtenIn, hs]
      split
      · rename_i c hc
        obtain ⟨hhas, hclass⟩ := hp.closestClass hn hc
        have hlt := height_lt_of_declares (p := p) (n := n) (by rw [hs]; rfl) (.inl hclass)
        have heq : p.writtenIn k c = p.writtenIn k' c :=
          ih hhas (.declaration (.inl hclass)) (by omega) (by omega)
        rw [heq]
      · rfl
    | typeReference =>
      have htype : n.shape.isTypeExpression := by rw [hs]; rfl
      have hsimple := hl.isSimple htype
      simp only [writtenIn, hs]
      split
      · rename_i d hd
        obtain ⟨hdhas, hdlight⟩ := hsimple.declares hp hn hs hd
        have hlt := height_lt_of_declares (p := p) htype hdlight
        have hargs : ∀ a ∈ p.typeArguments n, p.writtenIn k a = p.writtenIn k' a := fun a ha => by
          have hlt := height_lt_typeArgument hn htype ha
          exact ih (hn.typeArgument ha).1 (.type (hsimple.argument hs ha)) (by omega) (by omega)
        have heq : p.writtenIn k d = p.writtenIn k' d := ih hdhas (.declaration hdlight) (by omega) (by omega)
        rw [heq, map_congr_left hargs]
      · rfl
    | classNode isPartial =>
      simp only [writtenIn, hs]
      split
      · have hparams : ∀ d ∈ p.typeParameters n, p.writtenIn k d = p.writtenIn k' d := fun d hd => by
          obtain ⟨hdhas, hdshape⟩ := Has.typeParameter hn hd
          have hlt := height_lt_class hn (by rw [hs]; rfl) hd
          exact ih hdhas (.declaration (.inr (.inl hdshape))) (by omega) (by omega)
        rw [map_congr_left hparams]
      · rfl
    | parameter =>
      simp only [writtenIn, hs]
      split
      · rename_i t ht
        have hlt := height_lt_parameter hn hs ht
        exact ih (hn.part ht) (.type (hl.parameterType hs ht)) (by omega) (by omega)
      · rfl
    | _ => simp only [writtenIn, hs]

theorem Grown.written_eq (hp : p.Grown) (hn : p.Has n) (hl : p.IsLight n)
    (hk : p.height n < k) : p.writtenIn k n = p.written n :=
  hp.writtenIn_eq hn hl hk (Nat.lt_succ_self _)

section

variable {n : Node}

/-- Patience that is enough for every light node. -/
theorem Grown.exists_written (hp : p.Grown) (hn : p.Has n) (hl : p.IsLight n) : ∃ k,
    p.written n = p.writtenIn (k + 1) n ∧ ∀ {d : Node}, p.Has d → p.IsLight d → p.writtenIn k d = p.written d :=
  ⟨p.nodes.size + 4, (hp.written_eq hn hl (Nat.lt_succ_of_lt (height_lt n))).symm,
    fun hd hl => hp.written_eq hd hl (height_lt _)⟩

theorem Grown.written_selfType (hp : p.Grown) (hn : p.Has n) (hs : n.shape = .selfType) :
    p.written n = (p.closestClass? n).elim .unknown fun c => .self (p.written c) := by
  obtain ⟨k, hn', hk⟩ := hp.exists_written hn (.type (.self hs))
  simp only [hn', writtenIn, hs]
  cases hc : p.closestClass? n with
  | none => rfl
  | some c =>
    obtain ⟨hhas, hclass⟩ := hp.closestClass hn hc
    exact congrArg Ty.self (hk hhas (.declaration (.inl hclass)))

theorem Grown.written_typeReference (hp : p.Grown) (hn : p.Has n) (hs : n.shape = .typeReference)
    (h : p.IsSimple n) : p.written n = (p.declaration? n .type).elim .unknown fun d =>
      (p.written d).withArguments ((p.typeArguments n).map p.written) := by
  obtain ⟨k, hn', hk⟩ := hp.exists_written hn (.type h)
  simp only [hn', writtenIn, hs]
  cases hd : p.declaration? n .type with
  | none => rfl
  | some d =>
    obtain ⟨hdhas, hdlight⟩ := h.declares hp hn hs hd
    have hargs (a : Node) (ha : a ∈ p.typeArguments n) : p.writtenIn k a = p.written a :=
      hk (hn.typeArgument ha).1 (.type (h.argument hs ha))
    simp only [hk hdhas (.declaration hdlight), map_congr_left hargs]
    rfl

theorem Grown.written_class (hp : p.Grown) (hn : p.Has n) (hs : n.shape.isClass) {name : String}
    (hname : p.nameOf? n = some name) : p.written n = .object name n.id ((p.typeParameters n).map p.written) := by
  obtain ⟨k, hn', hk⟩ := hp.exists_written hn (.declaration (.inl hs))
  have hparams (d : Node) (hd : d ∈ p.typeParameters n) : p.writtenIn k d = p.written d := by
    obtain ⟨hdhas, hdshape⟩ := Has.typeParameter hn hd
    exact hk hdhas (.declaration (.inr (.inl hdshape)))
  grind [writtenIn, map_congr_left]

theorem written_typeParameter (hs : n.shape.isTypeParameter) :
    p.written n = (p.nameOf? n).elim .unknown fun name => .parameter name n.id [] := by
  grind [written, writtenIn]

theorem written_import (hs : n.shape = .importDirective) : p.written n = .unknown := by
  simp only [written, writtenIn, hs]

theorem Grown.written_parameter (hp : p.Grown) (hn : p.Has n) (hs : n.shape = .parameter) (hl : p.IsLight n) :
    p.written n = (p.type? n).elim .unknown p.written := by
  obtain ⟨k, hn', hk⟩ := hp.exists_written hn hl
  simp only [hn', writtenIn, hs]
  cases ht : p.type? n with
  | none => rfl
  | some t => exact hk (hn.part ht) (.type (hl.parameterType hs ht))

theorem madeOf_typeParameter (hs : n.shape.isTypeParameter) (S : Nat → Prop) : (p.written n).MadeOf S := by
  rw [written_typeParameter hs]
  cases p.nameOf? n with
  | none => exact .unknown
  | some name => exact .parameter nofun

theorem Grown.made_class (hp : p.Grown) (hn : p.Has n) (hs : n.shape.isClass) :
    (p.written n).classId? = some n.id ∧ (p.written n).MadeOf (· = n.id) := by
  obtain ⟨name, hname⟩ := hn.className hs
  rw [hp.written_class hn hs hname]
  refine ⟨rfl, .object rfl (forall_mem_map.mpr fun d hd => ?_)⟩
  exact madeOf_typeParameter (Has.typeParameter hn hd).2 _

/-- A type is of the class that it is called by, and made of those that it names. -/
theorem IsSimple.made (hp : p.Grown) (hn : p.Has n) (h : p.IsSimple n) :
    (p.written n).classId? = (p.denoted? n).map (·.id) ∧ (p.written n).MadeOf (p.Names n) := by
  induction h with
  | @self n hs =>
    rw [hp.written_selfType hn hs, denoted?, hs]
    cases hc : p.closestClass? n with
    | none => exact ⟨rfl, .unknown⟩
    | some c =>
      obtain ⟨hchas, hclass⟩ := hp.closestClass hn hc
      refine ⟨rfl, .self ((hp.made_class hchas hclass).2.mono fun id hid => ⟨c, ?_, hid.symm⟩)⟩
      grind [Has.mem_named, declaration?]
  | @reference n hs hd ha ih =>
    have hsimple : p.IsSimple n := .reference hs hd ha
    have htype : n.shape.isTypeExpression := by rw [hs]; rfl
    rw [hp.written_typeReference hn hs hsimple, denoted?, hs]
    cases hdecl : p.declaration? n .type with
    | none => exact ⟨rfl, .unknown⟩
    | some d =>
      have hargs : ∀ u ∈ (p.typeArguments n).map p.written, u.MadeOf (p.Names n) :=
        forall_mem_map.mpr fun a hmem =>
          (ih a hmem (hn.typeArgument hmem).1).2.mono fun id => Has.names_typeArgument hn htype hmem
      obtain ⟨hdhas, hclass | hparam | himport⟩ := hsimple.declares hp hn hs hdecl
      · obtain ⟨hid, hmade⟩ := hp.made_class hdhas hclass
        refine ⟨?_, .withArguments hargs (hmade.mono fun id hid => ⟨d, ?_, hid.symm⟩)⟩
        · grind [Ty.classId?_withArguments]
        · exact Has.mem_named hn htype hdecl hclass
      · refine ⟨?_, .withArguments hargs (madeOf_typeParameter hparam _)⟩
        have hnot : d.shape.isClass = false := by
          cases hds : d.shape <;> rw [hds] at hparam <;> cases hparam
          rfl
        have hid : (p.written d).classId? = none := by
          rw [written_typeParameter hparam]
          cases p.nameOf? d <;> rfl
        grind [Ty.classId?_withArguments]
      · simp [Option.elim, written_import himport, Ty.withArguments, Ty.classId?, Option.filter_some, himport,
          Shape.isClass, Ty.MadeOf.unknown]

end

end Program

end Parlance
