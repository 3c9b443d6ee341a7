import Mathlib.Data.Fintype.Card
import Mathlib.Data.Set.Finite.List
import Mathlib.Order.GameAdd
import Parlance.Proofs.Flattening
/-!
A type leads to its parts and to the types its class says it is; that comes to an end if no class leads back
to itself.
-/
namespace Parlance

open List Relation

namespace Program

variable {p : Program} {c : Node}

def Mentions (p : Program) (c k : Node) : Prop := ∃ t ∈ p.superExpressions c, k ∈ p.named t

def Under (p : Program) (c k : Node) : Prop := ∃ t ∈ p.superExpressions c, p.denoted? t = some k

theorem Grown.has_of_mentions (hp : p.Grown) {k : Node} (hc : p.Has c) (h : p.Mentions c k) : p.Has k := by
  obtain ⟨t, ht, hk⟩ := h
  obtain ⟨hthas, httype⟩ := hc.superExpression ht
  obtain ⟨s, hs, -, hd, -⟩ := (mem_named httype).mp hk
  exact (hp.meaning (hthas.mem_within.mp hs).1 hd).1

theorem Under.mentions {k : Node} (h : p.Under c k) (hc : p.Has c) : p.Mentions c k := by
  obtain ⟨t, ht, hk⟩ := h
  obtain ⟨hthas, httype⟩ := hc.superExpression ht
  refine ⟨t, ht, ?_⟩
  cases hs : t.shape <;> rw [hs] at httype <;> cases httype
  · rw [denoted?, hs] at hk
    obtain ⟨hd, hclass⟩ := Option.filter_eq_some_iff.mp hk
    exact Has.mem_named hthas (by rw [hs]; rfl) hd hclass
  · rw [denoted?, hs] at hk
    cases hk

theorem Grown.has_of_under (hp : p.Grown) {k : Node} (hc : p.Has c) (h : p.Under c k) : p.Has k := by
  obtain ⟨t, ht, hk⟩ := h
  exact hp.has_of_is hc (is_of_denoted hc ht hk)

/-- Where no class that is reached leads back to itself the way comes to an end. -/
theorem Grown.acc_of_acyclic (hp : p.Grown) {R : Node → Node → Prop} (hR : ∀ {c k}, p.Has c → R c k → p.Has k)
    (hc : p.Has c) (h : ∀ k, ReflTransGen R c k → ¬ TransGen R k k) : Acc (fun k c => R c k) c := by
  have hfinite : Finite {k // ReflTransGen R c k} :=
    (finite_toSet p.all).subset fun k hk => hp.sown.mem_all.mpr (has_of_path hR hc hk)
  let r (a b : {k // ReflTransGen R c k}) : Prop := TransGen R b.1 a.1
  have htrans : IsTrans _ r := ⟨fun _ _ _ hab hbc => hbc.trans hab⟩
  have hirrefl : Std.Irrefl r := ⟨fun a => h a.1 a.2⟩
  have hwf := Finite.wellFounded_of_trans_of_irrefl r
  suffices ∀ a : {k // ReflTransGen R c k}, Acc (fun k c => R c k) a.1 from this ⟨c, .refl⟩
  intro a
  induction a using hwf.induction with
  | _ a ih => exact Acc.intro _ fun k hk => ih ⟨k, a.2.tail hk⟩ (.single hk)

end Program

/-! ### Types among some classes -/

theorem Behaviour.type_inj {b b' : Behaviour} (h : b.type = b'.type) : b = b' := by
  cases b
  cases b'
  cases h
  rfl

namespace Ty

def literalName? : Ty → Option String
  | integerLiteral => some "Integer"
  | floatLiteral => some "Float"
  | symbol _ => some "Symbol"
  | _ => none

/-- The type speaks of classes in `S`, and behaviours in it are nested at most `n` deep. -/
inductive Among (p : Program) (S : Node → Prop) : Nat → Ty → Prop where
  | unknown {n} : Among p S n unknown
  | self {n t} (h : Among p S n t) : Among p S n (self t)
  | object {n name c args} (hc : S c) (ha : ∀ t ∈ args, Among p S n t) : Among p S n (object name c.id args)
  | classObject {n name id args} : Among p S n (classObject name id args)
  | parameter {n name id args} : Among p S n (parameter name id args)
  | literal {n} {t : Ty} {name} (ht : t.literalName? = some name) (h : ∀ c, p.standard? name = some c → S c) :
    Among p S n t
  | behaviour {n} {b : Behaviour} (ha : ∀ t ∈ b.arguments, Among p S n t) (hs : Among p S n b.result) :
    Among p S (n + 1) b.type

variable {p : Program} {S : Node → Prop} {n k : Nat} {t : Ty}

theorem Among.mono (h : t.Among p S n) (hn : n ≤ k) : t.Among p S k := by
  induction h generalizing k with
  | unknown => exact .unknown
  | self _ ih => exact .self (ih hn)
  | object hc _ ih => exact .object hc fun t ht => ih t ht hn
  | classObject => exact .classObject
  | parameter => exact .parameter
  | literal ht h => exact .literal ht h
  | behaviour _ _ iha ihs =>
    cases k with
    | zero => cases hn
    | succ k =>
      have hn := Nat.le_of_succ_le_succ hn
      exact .behaviour (fun t ht => iha t ht hn) (ihs hn)

theorem Among.argument {args : List Ty} (h : ∀ t ∈ args, t.Among p S n) (i : Nat) : (argument args i).Among p S n :=
  forall_argument .unknown h i

theorem Among.subst {m : Substitution} (hm : ∀ e ∈ m, e.2.Among p S n)
    (h : t.MadeOf fun id => ∃ c, S c ∧ c.id = id) : (t.subst m).Among p S n := by
  induction h with
  | unknown => exact .unknown
  | self _ ih => exact .self ih
  | object hid _ ih =>
    obtain ⟨c, hc, rfl⟩ := hid
    rw [Ty.subst, substAll_eq_map]
    exact .object hc (forall_mem_map.mpr ih)
  | parameter => exact subst_parameter hm .parameter

theorem MadeOf.among (h : t.MadeOf fun id => ∃ c, S c ∧ c.id = id) : t.Among p S n := by
  rw [← t.subst_nil]
  exact .subst nofun h

end Ty

namespace Program

variable {args : List Ty} {id : Nat} {c : Node} {name : String}

mutual

def classesOf (p : Program) : Ty → List Nat
  | .object _ id args => id :: classesOfAll p args
  | .self t => classesOf p t
  | .behaviour _ _ _ _ args result => classesOfAll p args ++ classesOf p result
  | t => ((t.literalName?.bind p.standard?).map (·.id)).toList

def classesOfAll (p : Program) : List Ty → List Nat
  | [] => []
  | t :: ts => classesOf p t ++ classesOfAll p ts

end

variable {p : Program} {S : Node → Prop} {n : Nat} {t u : Ty}

theorem mem_classesOfAll : id ∈ p.classesOfAll args ↔ ∃ t ∈ args, id ∈ p.classesOf t := by
  induction args with
  | nil => simp [classesOfAll]
  | cons t ts ih => simp [classesOfAll, ih]

theorem exists_among_all (h : ∀ t ∈ args, ∃ n, t.Among p S n) : ∃ n, ∀ t ∈ args, t.Among p S n := by
  induction args with
  | nil => exact ⟨0, nofun⟩
  | cons t ts ih =>
    obtain ⟨n, hn⟩ := h t mem_cons_self
    obtain ⟨k, hk⟩ := ih fun u hu => h u (mem_cons_of_mem t hu)
    refine ⟨max n k, fun u hu => ?_⟩
    cases hu with
    | head => exact hn.mono (Nat.le_max_left n k)
    | tail _ hu => exact (hk u hu).mono (Nat.le_max_right n k)

theorem exists_among (hp : p.Grown) (ht : t.Over p) (h : ∀ c, p.Has c → c.id ∈ p.classesOf t → S c) :
    ∃ n, t.Among p S n := by
  have hliteral {t : Ty} {name : String} (hname : t.literalName? = some name)
      (h : ∀ c, p.Has c → c.id ∈ p.classesOf t → S c) : ∃ n, t.Among p S n := by
    refine ⟨0, .literal hname fun c hc => h c (hp.standard hc).1 ?_⟩
    cases t <;> cases hname <;> simp [classesOf, Ty.literalName?, hc]
  induction ht with
  | unknown => exact ⟨0, .unknown⟩
  | self _ _ ih =>
    obtain ⟨n, hn⟩ := ih h
    exact ⟨n, .self hn⟩
  | @object name c args hc _ ih =>
    obtain ⟨n, hn⟩ := exists_among_all fun t ht => ih t ht fun k hk hmem => h k hk
      (mem_cons_of_mem _ (mem_classesOfAll.mpr ⟨t, ht, hmem⟩))
    exact ⟨n, .object (h c hc mem_cons_self) hn⟩
  | classObject => exact ⟨0, .classObject⟩
  | parameter => exact ⟨0, .parameter⟩
  | symbol value => exact hliteral rfl h
  | integerLiteral => exact hliteral rfl h
  | floatLiteral => exact hliteral rfl h
  | @behaviour method receiver result form parts args _ _ _ _ iha ihs =>
    obtain ⟨n, hn⟩ := exists_among_all fun t ht => iha t ht fun k hk hmem => h k hk
      (mem_append_left _ (mem_classesOfAll.mpr ⟨t, ht, hmem⟩))
    obtain ⟨k, hk⟩ := ihs fun c hc hmem => h c hc (mem_append_right _ hmem)
    exact ⟨max n k + 1, .behaviour (b := ⟨method, receiver, form, parts, args, result⟩)
      (fun t ht => (hn t ht).mono (Nat.le_max_left n k)) (hk.mono (Nat.le_max_right n k))⟩

/-! ### Where a type leads -/

def Classed (p : Program) (t v : Ty) : Prop :=
  match t.literalName? with
  | none => v = t
  | some name => v.MadeOf fun id => ∃ c, p.standard? name = some c ∧ c.id = id

def Above (p : Program) (c : Node) (args : List Ty) (s : Ty) : Prop :=
  ∃ t ∈ p.superExpressions c, ∃ v : Ty,
    (p.IsSimple t → v.classId? = (p.denoted? t).map (·.id) ∧ v.MadeOf (p.Names t)) ∧
    s = v.subst (p.substitution (some c) args) ∧ s.classId?.isSome

/-- A type that takes the place of another on the side where something is asked for. -/
inductive Part (p : Program) : Ty → Ty → Prop where
  | argument {name : String} {id : Nat} {args : List Ty} (i : Nat) : Part p (.argument args i) (.object name id args)
  | literal {t : Ty} {v name} (ht : t.literalName? = some name) (hv : p.Classed t v) : Part p v t
  | behaviourArgument {b : Behaviour} (i : Nat) : Part p (.argument b.arguments i) b.type
  | result {b : Behaviour} : Part p b.result b.type

/-- A type that takes the place of another on the side of what is given. -/
inductive Rise (p : Program) : Ty → Ty → Prop where
  | self {t : Ty} : Rise p t (.self t)
  | literal {t : Ty} {v name} (ht : t.literalName? = some name) (hv : p.Classed t v) : Rise p v t
  | above {name c args s} (hc : p.Has c) (hs : p.Above c args s) : Rise p s (.object name c.id args)

def Below (p : Program) (t u : Ty) : Prop := p.Part t u ∨ p.Rise t u

inductive Next (p : Program) : Ty × Ty → Ty × Ty → Prop where
  | self {t u : Ty} : Next p (t, u) (t, .self u)
  | above {t u s name name' c d as bs} (hc : p.Has c) (hd : p.Has d) (hne : c ≠ d)
    (ht : p.Classed t (.object name c.id as)) (hu : p.Classed u (.object name' d.id bs)) (hs : p.Above d bs s) :
    Next p (.object name c.id as, s) (t, u)
  | argument {t u name name' c as bs} (i : Nat) (hc : p.Has c) (ht : p.Classed t (.object name c.id as))
    (hu : p.Classed u (.object name' c.id bs)) : Next p (.argument as i, .argument bs i) (t, u)
  | input {t u name name' c q as bs} (i : Nat) (hc : p.Has c) (ht : p.Classed t (.object name c.id as))
    (hu : p.Classed u (.object name' c.id bs)) (hq : q ∈ p.typeParameters c) (hv : q.shape.variance = .input) :
    Next p (.argument bs i, .argument as i) (t, u)
  | behaviourArgument {b b' : Behaviour} (i : Nat) :
    Next p (.argument b'.arguments i, .argument b.arguments i) (b.type, b'.type)
  | result {b b' : Behaviour} : Next p (b.result, b'.result) (b.type, b'.type)

theorem Classed.part (h : p.Classed t u) : ReflTransGen p.Part u t := by
  cases hname : t.literalName? with
  | none =>
    simp only [Classed, hname] at h
    rw [h]
  | some name => exact .single (.literal hname h)

theorem Classed.rise (h : p.Classed t u) : ReflTransGen p.Rise u t := by
  cases hname : t.literalName? with
  | none =>
    simp only [Classed, hname] at h
    rw [h]
  | some name => exact .single (.literal hname h)

theorem Classed.behaviour {b : Behaviour} (h : p.Classed t b.type) : t = b.type := by
  cases hname : t.literalName? with
  | none =>
    simp only [Classed, hname] at h
    exact h.symm
  | some name =>
    simp only [Classed, hname] at h
    cases h

/-! ### Where no class leads back to itself -/

structure Plain (p : Program) (S : Node → Prop) : Prop where
  has : ∀ c, S c → p.Has c
  simple : ∀ c, S c → ∀ t ∈ p.superExpressions c, p.IsSimple t

/-- Classes that speak of each other only. -/
structure Bounded (p : Program) (S : Node → Prop) : Prop extends Plain p S where
  closed : ∀ c k, S c → p.Mentions c k → S k

theorem Classed.among (h : p.Classed t u) (ht : t.Among p S n) : u.Among p S n := by
  cases hname : t.literalName? with
  | none =>
    simp only [Classed, hname] at h
    rwa [h]
  | some name =>
    simp only [Classed, hname] at h
    cases ht with
    | literal hn hS =>
      obtain rfl := Option.some.inj (hname.symm.trans hn)
      exact (h.mono fun id ⟨c, hc, hid⟩ => ⟨c, hS c hc, hid⟩).among
    | _ => cases hname

theorem among_substitution (ha : ∀ t ∈ args, t.Among p S n) (c : Option Node) :
    ∀ e ∈ p.substitution c args, e.2.Among p S n := by
  intro e he
  obtain ⟨i, hi, rfl⟩ := mem_mapIdx.mp he
  exact .argument ha i

theorem Bounded.above (h : p.Bounded S) (hc : S c) (ha : ∀ t ∈ args, t.Among p S n)
    {s : Ty} (hs : p.Above c args s) : s.Among p S n := by
  obtain ⟨t, ht, v, hv, rfl, -⟩ := hs
  refine .subst (among_substitution ha _) ((hv (h.simple _ hc t ht)).2.mono fun id ⟨k, hk, hid⟩ => ⟨k, ?_, hid⟩)
  exact h.closed c k hc ⟨t, ht, hk⟩

theorem Below.inv {s : Ty} (h : p.Below s t) : match t with
    | .object _ id args => (∃ i, s = .argument args i) ∨ ∃ c, p.Has c ∧ c.id = id ∧ p.Above c args s | .self u => s = u
    | .behaviour _ _ _ _ args result => (∃ i, s = .argument args i) ∨ s = result
    | .unknown | .classObject .. | .parameter .. => False | t => p.Classed t s := by
  rcases h with h | h
  · cases h with
    | argument i | behaviourArgument i => exact .inl ⟨i, rfl⟩
    | literal ht hv => cases t <;> first | exact hv | cases ht
    | result => exact .inr rfl
  · cases h with
    | self => rfl
    | literal ht hv => cases t <;> first | exact hv | cases ht
    | above hc hs => exact .inr ⟨_, hc, rfl, hs⟩

theorem Below.classed {s : Ty} (h : p.Below s t) (ht : t.literalName? = some name) : p.Classed t s := by
  have hinv := h.inv
  cases t <;> first | exact hinv | cases ht

section

variable {L : Ty → Ty → Prop} (hL : ∀ s t, L s t → p.Below s t)
include hL

theorem acc_unknown : Acc L .unknown := Acc.intro _ fun s hs => (hL s _ hs).inv.elim

theorem acc_argument (h : ∀ a ∈ args, Acc L a) (i : Nat) : Acc L (.argument args i) :=
  Ty.forall_argument (acc_unknown hL) h i

theorem acc_self (h : Acc L t) : Acc L (.self t) := Acc.intro _ fun s hs => by rwa [(hL s _ hs).inv]

theorem acc_parameter : Acc L (.parameter name id args) := Acc.intro _ fun s hs => (hL s _ hs).inv.elim

/-- A written type leads nowhere for ever if its classes and what stands for its parameters do not. -/
theorem acc_subst {T : Nat → Prop} {m : Ty.Substitution} {v : Ty}
    (hT : ∀ id, T id → ∀ name args, (∀ a ∈ args, Acc L a) → Acc L (.object name id args))
    (hm : ∀ e ∈ m, Acc L e.2) (hv : v.MadeOf T) : Acc L (v.subst m) := by
  induction hv with
  | unknown => exact acc_unknown hL
  | self _ ih => exact acc_self hL ih
  | object hid _ ih => grind [Ty.subst, Ty.substAll_eq_map]
  | parameter => exact Ty.subst_parameter hm (acc_parameter hL)

theorem acc_of_among (hobject : ∀ c, S c → ∀ name args, (∀ a ∈ args, Acc L a) → Acc L (.object name c.id args))
    (ht : t.Among p S n) : Acc L t := by
  induction ht with
  | unknown => exact acc_unknown hL
  | self _ ih => exact acc_self hL ih
  | object hc _ ih => exact hobject _ hc _ _ ih
  | classObject => exact Acc.intro _ fun s hs => (hL s _ hs).inv.elim
  | parameter => exact acc_parameter hL
  | literal hname hS =>
    refine Acc.intro _ fun s hs => ?_
    have hv := (hL s _ hs).classed hname
    simp only [Classed, hname] at hv
    rw [← s.subst_nil]
    exact acc_subst hL (fun id ⟨c, hc, hid⟩ => hid ▸ hobject c (hS c hc)) nofun hv
  | behaviour _ _ iha ihs =>
    refine Acc.intro _ fun s hs => ?_
    rcases (hL s _ hs).inv with ⟨i, rfl⟩ | rfl
    · exact acc_argument hL iha i
    · exact ihs

end

theorem Bounded.acc_object (h : p.Bounded S) (hc : S c) (hacc : Acc (fun k c => p.Mentions c k) c) (hid : c.id = id)
    (ha : ∀ a ∈ args, Acc p.Below a) : Acc p.Below (.object name id args) := by
  induction hacc generalizing name id args with
  | intro c _ ih =>
    refine Acc.intro _ fun s hs => ?_
    rcases hs.inv with ⟨i, rfl⟩ | ⟨d, hd, hdid, t, ht, v, hv, rfl, -⟩
    · exact acc_argument (fun _ _ h => h) ha i
    · obtain rfl := (h.has c hc).eq_of_id hd (hid.trans hdid.symm)
      refine acc_subst (fun _ _ h => h) (fun id hk name args => ?_) (fun e he => ?_) (hv (h.simple _ hc t ht)).2
      · obtain ⟨k, hk, hkid⟩ := hk
        exact ih k ⟨t, ht, hk⟩ (h.closed c k hc ⟨t, ht, hk⟩) hkid
      · obtain ⟨i, hi, rfl⟩ := mem_mapIdx.mp he
        exact acc_argument (fun _ _ h => h) ha i

theorem Bounded.acc_below (h : p.Bounded S) (hacc : ∀ c, S c → Acc (fun k c => p.Mentions c k) c)
    (ht : t.Among p S n) : Acc p.Below t :=
  acc_of_among (fun _ _ h => h) (fun c hc _ _ => h.acc_object hc (hacc c hc) rfl) ht

/-- Of two types one comes down, or both, and the sides do not matter. -/
theorem acc_next_of_below (ht : Acc p.Below t) (hu : Acc p.Below u) : Acc p.Next (t, u) := by
  have hdown {a b t u : Ty} (ha : ReflTransGen p.Part a t) (hb : TransGen p.Below b u) :
      TransGen (Sym2.GameAdd p.Below) s(a, b) s(t, u) :=
    TransGen.trans_right (ha.lift (fun x => s(x, b)) fun _ _ h => Sym2.GameAdd.fst (.inl h))
      (hb.lift (fun x => s(t, x)) fun _ _ => Sym2.GameAdd.snd)
  have hpart {a t v : Ty} (hv : p.Classed t v) (ha : p.Part a v) : TransGen p.Part a t := .head' ha hv.part
  have hbelow {a t : Ty} (h : TransGen p.Part a t) : TransGen p.Below a t :=
    h.lift id fun _ _ => .inl
  refine Subrelation.accessible (r := InvImage (TransGen (Sym2.GameAdd p.Below)) fun q => s(q.1, q.2)) ?_
    (InvImage.accessible _ (Acc.sym2_gameAdd ht hu).transGen)
  intro q q' h
  cases h with
  | self => exact .single (.snd (.inr .self))
  | above hc hd _ ht hu hs =>
    exact hdown ht.part (.head' (.inr (.above hd hs)) (hu.rise.lift id fun _ _ => .inr))
  | argument i _ ht hu =>
    exact hdown (hpart ht (.argument i)).to_reflTransGen (hbelow (hpart hu (.argument i)))
  | input i _ ht hu =>
    show TransGen _ s(_, _) s(_, _)
    rw [Sym2.eq_swap]
    exact hdown (hpart ht (.argument i)).to_reflTransGen (hbelow (hpart hu (.argument i)))
  | behaviourArgument i =>
    show TransGen _ s(_, _) s(_, _)
    rw [Sym2.eq_swap]
    exact hdown (.single (.behaviourArgument i)) (.single (.inl (.behaviourArgument i)))
  | result => exact hdown (.single .result) (.single (.inl .result))

/-! ### Where the sides never change -/

theorem acc_part (ht : t.Among p S n) : Acc p.Part t := by
  refine acc_of_among (fun _ _ => .inl) (fun c _ name args ha => Acc.intro _ fun s hs => ?_) ht
  cases hs with
  | argument i => exact acc_argument (fun _ _ => .inl) ha i
  | literal hl => cases hl

/-- Classes whose arguments are compared on the side they are on, and that say by name what they are. -/
structure OneSided (p : Program) (S : Node → Prop) : Prop extends Bounded p S where
  sides : ∀ c, S c → ∀ q ∈ p.typeParameters c, q.shape.variance ≠ .input
  named : ∀ c, S c → ∀ t ∈ p.superExpressions c, (p.denoted? t).isSome
  ends : ∀ c, S c → Acc (fun k c => p.Under c k) c

theorem Plain.under_of_above (h : p.Plain S) (hc : S c)
    (hnamed : ∀ t ∈ p.superExpressions c, (p.denoted? t).isSome) {s : Ty}
    (hs : p.Above c args s) : ∃ name k args', s = .object name k.id args' ∧ p.Under c k := by
  obtain ⟨t, ht, v, hv, rfl, -⟩ := hs
  obtain ⟨k, hk⟩ := Option.isSome_iff_exists.mp (hnamed t ht)
  have hid := (hv (h.simple _ hc t ht)).1
  rw [hk] at hid
  cases v with
  | object name id args' =>
    obtain rfl : id = k.id := Option.some.inj hid
    exact ⟨name, k, _, rfl, t, ht, hk⟩
  | _ => cases hid

theorem OneSided.acc_rise_object (h : p.OneSided S) (hc : S c)
    (hid : c.id = id) : Acc p.Rise (.object name id args) := by
  have hends := h.ends c hc
  induction hends generalizing name id args with
  | intro c _ ih =>
    refine Acc.intro _ fun s hs => ?_
    cases hs with
    | literal hl => cases hl
    | above hd hs =>
      obtain rfl := (h.has c hc).eq_of_id hd hid
      obtain ⟨name, k, args', rfl, hk⟩ := h.toPlain.under_of_above hc (h.named c hc) hs
      exact ih k hk (h.closed c k hc (hk.mentions hd)) rfl

theorem OneSided.acc_rise (h : p.OneSided S) (ht : t.Among p S n) : Acc p.Rise t :=
  acc_of_among (fun _ _ => .inr) (fun _ hc _ _ _ => h.acc_rise_object hc rfl) ht

theorem Classed.mem (h : p.Bounded S) (hc : p.Has c) (hv : p.Classed t (.object name c.id args)) (ht : t.Among p S n) :
    S c ∧ ∀ a ∈ args, a.Among p S n := by
  have hamong := hv.among ht
  generalize hid : c.id = id at hamong
  cases hamong with
  | object hk ha => exact ⟨(h.has _ hk).eq_of_id hc hid.symm ▸ hk, ha⟩
  | literal hl => cases hl

theorem among_behaviour {b : Behaviour} (h : b.type.Among p S n) :
    ∃ k < n, (∀ a ∈ b.arguments, a.Among p S k) ∧ b.result.Among p S k := by
  generalize hb : b.type = v at h
  cases h with
  | @behaviour k b' ha hs => grind [Behaviour.type_inj]
  | literal hl =>
    rw [← hb] at hl
    cases hl
  | _ => cases hb

/-- What is asked for comes down to its parts, and until it does what is given rises; when methods are
compared the sides change, but then there is one behaviour less around them. -/
theorem OneSided.acc_next (h : p.OneSided S) (ht : t.Among p S n) (hu : u.Among p S n) : Acc p.Next (t, u) := by
  induction n using Nat.strongRecOn generalizing t u with
  | _ n ihn =>
    have hpart := (acc_part ht).transGen
    induction hpart generalizing u with
    | intro t _ iht =>
      have hrise := (h.acc_rise hu).transGen
      induction hrise with
      | intro u _ ihu =>
        refine Acc.intro _ fun q hq => ?_
        cases hq with
        | self =>
          cases hu with
          | self hu => exact ihu _ (.single .self) hu
          | literal hl => cases hl
        | above hc hd _ htc huc hs =>
          obtain ⟨hdS, hbs⟩ := huc.mem h.toBounded hd hu
          have hsamong := h.above hdS hbs hs
          rcases reflTransGen_iff_eq_or_transGen.mp htc.part with rfl | hpart
          · exact ihu _ (.head' (.above hd hs) huc.rise) hsamong
          · exact iht _ hpart (htc.among ht) hsamong
        | argument i hc htc huc =>
          exact iht _ (.head' (.argument i) htc.part) (.argument (htc.mem h.toBounded hc ht).2 i)
            (.argument (huc.mem h.toBounded hc hu).2 i)
        | input i hc htc _ hq hv => exact absurd hv (h.sides _ (htc.mem h.toBounded hc ht).1 _ hq)
        | behaviourArgument i =>
          obtain ⟨k, hk, ha, -⟩ := among_behaviour ht
          obtain ⟨k', hk', ha', -⟩ := among_behaviour hu
          exact ihn (max k k') (Nat.max_lt.mpr ⟨hk, hk'⟩)
            (.argument (fun a h => (ha' a h).mono (Nat.le_max_right k k')) i)
            (.argument (fun a h => (ha a h).mono (Nat.le_max_left k k')) i)
        | result =>
          obtain ⟨k, hk, -, hs⟩ := among_behaviour ht
          obtain ⟨k', hk', -, hs'⟩ := among_behaviour hu
          exact ihn (max k k') (Nat.max_lt.mpr ⟨hk, hk'⟩) (hs.mono (Nat.le_max_left k k'))
            (hs'.mono (Nat.le_max_right k k'))

end Program

end Parlance
