import Parlance.Proofs.Assignments
/-!
When a type does for another, said apart from how it is found out. It is a preorder if type parameters are
passed on as their variance lets them.
-/
namespace Parlance

open List Relation

def Variance.turns : Variance → Bool
  | .input => true
  | _ => false

def Variance.fixes : Variance → Bool
  | .input | .output => false
  | _ => true

namespace Ty

variable {args : List Ty} {k : Nat}

/-- A type of classes of the program, each with as many arguments as it has parameters. -/
inductive Closed (p : Program) : Ty → Prop where
  | object {name c} {args : List Ty} (hc : p.Has c) (hclass : c.shape.isClass)
    (hlen : args.length = (p.typeParameters c).length) (ha : ∀ t ∈ args, Closed p t) :
    Closed p (object name c.id args)

/-- A type like a closed one in which there may be `Self`. -/
inductive Proper (p : Program) : Ty → Prop where
  | object {name c} {args : List Ty} (hc : p.Has c) (hclass : c.shape.isClass)
    (hlen : args.length = (p.typeParameters c).length) (ha : ∀ t ∈ args, Proper p t) :
    Proper p (object name c.id args)
  | self {t} (h : Proper p t) (hid : t.classId?.isSome) : Proper p (self t)

variable {p : Program} {t : Ty}

theorem Closed.proper (h : t.Closed p) : t.Proper p := by
  induction h with
  | object hc hclass hlen _ ih => exact .object hc hclass hlen ih

theorem Proper.over_ (h : t.Proper p) : t.Over p := by
  induction h with
  | object hc _ _ _ ih => exact .object hc ih
  | self _ hid ih => exact .self ih (.inr hid)

theorem argument_of_getElem? (h : args[k]? = some t) : argument args k = t := by
  rw [argument, h]
  rfl

theorem getElem?_argument (h : k < args.length) : args[k]? = some (argument args k) := by
  rw [argument, List.getElem?_eq_getElem h]
  rfl

theorem argument_mem (h : k < args.length) : argument args k ∈ args :=
  mem_of_getElem? (getElem?_argument h)

end Ty

namespace Program

variable {p : Program} {R R' : Bool → Ty → Ty → Prop} {n m : Nat} {i : Bool} {t u a b : Ty} {v : Variance}
  {name : String} {args as bs : List Ty} {c : Node} {s : Ty}

/-! ### Why a type does for another -/

/-- Arguments compared as the parameter they stand for says. -/
def Compared (R : Bool → Ty → Ty → Prop) (v : Variance) (a b : Ty) : Prop :=
  if v.turns then R false b a else R v.fixes a b

def supers (p : Program) (c : Node) (args : List Ty) : List Ty :=
  ((p.superExpressions c).map fun t => (p.written t).subst (p.substitution (some c) args)).filter
    (·.classId?.isSome)

/-- A type does for another by one step, if smaller ones do as `R` says. -/
inductive Fits (p : Program) (R : Bool → Ty → Ty → Prop) (i : Bool) : Ty → Ty → Prop where
  | selves {t u : Ty} : Fits p R i (.self t) (.self u)
  | self {t u : Ty} (ht : ∀ v, t ≠ .self v) (h : R i t u) : Fits p R i t (.self u)
  | same {name name' c as bs} (hc : p.Has c)
    (h : ∀ k q, (p.typeParameters c)[k]? = some q → Compared R q.shape.variance (.argument as k) (.argument bs k)) :
    Fits p R i (.object name c.id as) (.object name' c.id bs)
  | above {name name' c d as bs s} (hc : p.Has c) (hd : p.Has d) (hne : c ≠ d) (hi : i = false)
    (hs : s ∈ p.supers d bs) (h : R false (.object name c.id as) s) :
    Fits p R i (.object name c.id as) (.object name' d.id bs)

/-- A type does for another, by less than `n` steps one within the other. If `i` they have to be of the
same class. -/
def Does (p : Program) : Nat → Bool → Ty → Ty → Prop
  | 0 => fun _ _ _ => False
  | n + 1 => Fits p (Does p n)

theorem Compared.mono (hR : ∀ i t u, R i t u → R' i t u) (h : Compared R v a b) :
    Compared R' v a b := by grind [Compared]

theorem Compared.of_refl (h : ∀ i, R i a a) : Compared R v a a := by
  unfold Compared
  split
  · exact h false
  · exact h _

theorem Fits.mono (hR : ∀ i t u, R i t u → R' i t u) (h : p.Fits R i t u) : p.Fits R' i t u := by
  cases h with
  | selves => exact .selves
  | self ht h => exact .self ht (hR _ _ _ h)
  | same hc h => exact .same hc fun k q hq => (h k q hq).mono hR
  | above hc hd hne hi hs h => exact .above hc hd hne hi hs (hR _ _ _ h)

theorem Fits.assignee {d : Node} (hd : p.Has d)
    (h : p.Fits R i t (.object name d.id bs)) : ∃ name' c as, t = .object name' c.id as ∧ p.Has c ∧
      (c = d ∧ (∀ k q, (p.typeParameters d)[k]? = some q →
        Compared R q.shape.variance (.argument as k) (.argument bs k)) ∨
      c ≠ d ∧ i = false ∧ ∃ s ∈ p.supers d bs, R false t s) := by
  generalize hu : Ty.object name d.id bs = u at h
  cases h with
  | selves | self => cases hu
  | same hc h =>
    injection hu with _ hid hargs
    obtain rfl := hd.eq_of_id hc hid
    exact ⟨_, d, _, rfl, hd, .inl ⟨rfl, hargs ▸ h⟩⟩
  | above hc hd' hne hi hs h =>
    injection hu with _ hid hargs
    obtain rfl := hd.eq_of_id hd' hid
    grind

theorem Fits.assigned (hc : p.Has c) (h : p.Fits R i (.object name c.id as) u) :
    (∃ v, u = .self v ∧ R i (.object name c.id as) v) ∨ ∃ name' d bs, u = .object name' d.id bs ∧ p.Has d ∧
      (c = d ∧ (∀ k q, (p.typeParameters c)[k]? = some q →
        Compared R q.shape.variance (.argument as k) (.argument bs k)) ∨
      c ≠ d ∧ i = false ∧ ∃ s ∈ p.supers d bs, R false (.object name c.id as) s) := by
  generalize ht : Ty.object name c.id as = t at h
  cases h with
  | selves => cases ht
  | self _ h => exact .inl ⟨_, rfl, h⟩
  | same hc' h =>
    injection ht with hname hid hargs
    obtain rfl := hc.eq_of_id hc' hid
    grind
  | above hc' hd hne hi hs h =>
    injection ht with hname hid hargs
    obtain rfl := hc.eq_of_id hc' hid
    grind

theorem Does.succ (h : p.Does n i t u) : p.Does (n + 1) i t u := by
  induction n generalizing i t u with
  | zero => exact h.elim
  | succ n ih => exact Fits.mono (fun _ _ _ => ih) h

theorem Does.mono (h : p.Does n i t u) (hnm : n ≤ m) : p.Does m i t u := by
  induction hnm with
  | refl => exact h
  | step _ ih => exact ih.succ

theorem Does.loosen (h : p.Does n i t u) : p.Does n false t u := by
  induction n generalizing i t u with
  | zero => exact h.elim
  | succ n ih =>
    cases h with
    | selves => exact Fits.selves
    | self ht h => exact Fits.self ht (ih h)
    | same hc h => exact Fits.same hc h
    | above hc hd hne _ hs h => exact Fits.above hc hd hne rfl hs h

theorem mem_supers : s ∈ p.supers c args ↔
    ∃ t ∈ p.superExpressions c, (p.written t).subst (p.substitution (some c) args) = s ∧
      s.classId?.isSome := by grind [supers]

/-! ### Where type parameters may stand -/

/-- Whether a parameter may stand where a type is compared as its class is or the other way round, and
where it has to be of the same class. -/
def allows (v : Variance) (forth fixed : Bool) : Bool :=
  if forth then (if fixed then v.fixes else !v.turns) else v.turns && !fixed

mutual

/-- Whether the parameters of the class stand where they may in a type, and `Self` where it is free to. -/
def suits (p : Program) (c : Node) (free : Bool → Bool → Bool) (forth fixed : Bool) : Ty → Bool
  | .parameter _ id _ =>
    ((p.typeParameters c).find? (·.id == id)).any fun q => allows q.shape.variance forth fixed
  | .object _ id args =>
    (p.node? id).any (·.shape.isClass) &&
      suitsAll p c free forth (((p.node? id).map p.typeParameters).getD []) args
  | .self t => free forth fixed && t.classId?.isSome && suits p c free true fixed t
  | _ => false

def suitsAll (p : Program) (c : Node) (free : Bool → Bool → Bool) (forth : Bool) : List Node → List Ty → Bool
  | [], [] => true
  | q :: qs, t :: ts =>
    suits p c free (forth != q.shape.variance.turns) q.shape.variance.fixes t && suitsAll p c free forth qs ts
  | _, _ => false

end

/-- What a class says it is are classes, and its type parameters stand where they may. -/
def passesOn (p : Program) (c : Node) : Bool :=
  (p.superExpressions c).all fun t =>
    p.namesNoBinding t && (p.denoted? t).isSome && p.suits c (fun _ _ => true) true false (p.written t)

theorem suitsAll_length {free : Bool → Bool → Bool} {forth : Bool} : (qs : List Node) → (ts : List Ty) →
    p.suitsAll c free forth qs ts → ts.length = qs.length
  | [], [], _ => rfl
  | _ :: qs, _ :: ts, h => by
    rw [suitsAll] at h
    exact congrArg (· + 1) (suitsAll_length qs ts (Bool.and_eq_true_iff.mp h).2)
  | [], _ :: _, h => by simp [suitsAll] at h
  | _ :: _, [], h => by simp [suitsAll] at h

inductive Suits (p : Program) (c : Node) (free : Bool → Bool → Bool) : Bool → Bool → Ty → Prop where
  | parameter {forth fixed name id args q} (hq : (p.typeParameters c).find? (·.id == id) = some q)
    (hv : allows q.shape.variance forth fixed) : Suits p c free forth fixed (.parameter name id args)
  | object {forth fixed name d} {args : List Ty} (hd : p.Has d) (hclass : d.shape.isClass)
    (hlen : args.length = (p.typeParameters d).length)
    (h : ∀ (k : Nat) (q : Node) t, (p.typeParameters d)[k]? = some q → args[k]? = some t →
      Suits p c free (forth != q.shape.variance.turns) q.shape.variance.fixes t) :
    Suits p c free forth fixed (.object name d.id args)
  | self {forth fixed} {t : Ty} (hf : free forth fixed) (hid : t.classId?.isSome)
    (h : Suits p c free true fixed t) : Suits p c free forth fixed (.self t)

mutual

theorem Suits.of_suits {c : Node} {free : Bool → Bool → Bool} {forth fixed : Bool} :
    (t : Ty) → t.Over p → p.suits c free forth fixed t → p.Suits c free forth fixed t
  | .parameter _ id _, _, h => by
    rw [suits] at h
    cases hq : (p.typeParameters c).find? (·.id == id) with
    | none =>
      rw [hq] at h
      cases h
    | some q =>
      rw [hq] at h
      exact .parameter hq h
  | .object _ _ args, .object hc ha, h => by
    rw [suits, hc.at_] at h
    obtain ⟨hclass, hall⟩ := Bool.and_eq_true_iff.mp h
    exact .object hc hclass (suitsAll_length _ args hall) (Suits.of_suitsAll _ args ha hall)
  | .self t, .self ht _, h => by
    rw [suits, Bool.and_eq_true, Bool.and_eq_true] at h
    obtain ⟨⟨hf, hid⟩, hs⟩ := h
    exact .self hf hid (Suits.of_suits t ht hs)

theorem Suits.of_suitsAll {c : Node} {free : Bool → Bool → Bool} {forth : Bool} : (qs : List Node) →
    (ts : List Ty) → (∀ t ∈ ts, t.Over p) → p.suitsAll c free forth qs ts →
      ∀ (k : Nat) q t, qs[k]? = some q → ts[k]? = some t →
        p.Suits c free (forth != q.shape.variance.turns) q.shape.variance.fixes t
  | q :: qs, t :: ts, hover, h => by
    rw [suitsAll] at h
    obtain ⟨ht, hall⟩ := Bool.and_eq_true_iff.mp h
    intro k q' t' hq' ht'
    cases k with
    | zero =>
      obtain rfl := Option.some.inj hq'
      obtain rfl := Option.some.inj ht'
      exact Suits.of_suits t (hover t mem_cons_self) ht
    | succ k => exact Suits.of_suitsAll qs ts (fun u hu => hover u (mem_cons_of_mem t hu)) hall k q' t' hq' ht'
  | [], _, _, _ => fun _ _ _ hq => by simp at hq
  | _ :: _, [], _, _ => fun _ _ _ _ ht => by simp at ht

end

/-! ### Types made alike -/

/-- Types made alike but for parts that `L` relates. The second is meant for the side of what is given
if the first flag is set, otherwise for the side of what is asked for. -/
inductive Like (p : Program) (L : Bool → Bool → Ty → Ty → Prop) : Bool → Bool → Ty → Ty → Prop where
  | leaf {forth fixed b a} (h : L forth fixed b a) : Like p L forth fixed b a
  | node {forth fixed name name' c bs as} (hc : p.Has c)
    (h : ∀ (k : Nat) (q : Node), (p.typeParameters c)[k]? = some q →
      Like p L (forth != q.shape.variance.turns) q.shape.variance.fixes (.argument bs k) (.argument as k)) :
    Like p L forth fixed (.object name c.id bs) (.object name' c.id as)
  | self {fixed b a} (h : Like p L true fixed b a) : Like p L true fixed (.self b) (.self a)
  | selfBack {fixed b a} : Like p L false fixed (.self b) (.self a)

section

variable {L : Bool → Bool → Ty → Ty → Prop} {forth : Bool}

theorem Like.loosen (hL : ∀ forth b a, L forth true b a → L forth false b a) (h : p.Like L forth true b a) :
    p.Like L forth false b a := by
  generalize hi : true = fixed at h
  induction h with
  | leaf h => subst hi; exact .leaf (hL _ _ _ h)
  | node hc h => exact .node hc h
  | self _ ih => exact .self (ih hi)
  | selfBack => exact .selfBack

theorem lookup_substitution {q : Node} {id : Nat} (hq : (p.typeParameters c).find? (·.id == id) = some q) :
    ∃ k : Nat, (p.typeParameters c)[k]? = some q ∧
      ∀ args, (p.substitution (some c) args).lookup id = some (.argument args k) := by
  have hgen (qs : List Node) (hq : qs.find? (·.id == id) = some q) : ∃ k : Nat, qs[k]? = some q ∧
      ∀ f : Nat → Ty, (qs.mapIdx fun i t => (t.id, f i)).lookup id = some (f k) := by
    induction qs with
    | nil => cases hq
    | cons t qs ih =>
      rw [find?_cons] at hq
      by_cases hid : t.id = id
      · rw [beq_iff_eq.mpr hid] at hq
        refine ⟨0, hq, fun f => ?_⟩
        rw [mapIdx_cons, lookup_cons, hid, beq_self_eq_true]
      · rw [beq_eq_false_iff_ne.mpr hid] at hq
        obtain ⟨k, hk, hf⟩ := ih hq
        refine ⟨k + 1, hk, fun f => ?_⟩
        rw [mapIdx_cons, lookup_cons, beq_eq_false_iff_ne.mpr (Ne.symm hid)]
        exact hf fun i => f (i + 1)
  obtain ⟨k, hk, hf⟩ := hgen _ hq
  exact ⟨k, hk, fun args => hf (Ty.argument args)⟩

/-- Where type parameters stand where they may, arguments that are made alike lead to types made alike. -/
theorem Suits.like {free : Bool → Bool → Bool} (hL : ∀ forth b a, L forth true b a → L forth false b a)
    (h : ∀ (k : Nat) (q : Node), (p.typeParameters c)[k]? = some q →
      p.Like L (true != q.shape.variance.turns) q.shape.variance.fixes (.argument bs k) (.argument as k))
    {fixed : Bool} (hs : p.Suits c free forth fixed t) :
    p.Like L forth fixed (t.subst (p.substitution (some c) bs)) (t.subst (p.substitution (some c) as)) := by
  induction hs with
  | @parameter forth fixed name id args q hq hv =>
    obtain ⟨k, hk, hlookup⟩ := lookup_substitution hq
    have hlike := h k q hk
    simp only [Ty.subst, hlookup]
    revert hv hlike
    generalize q.shape.variance = v
    cases v <;> cases forth <;> cases fixed <;> intro hv hlike <;>
      first | cases hv <;> done | exact hlike | exact hlike.loosen hL
  | @object forth fixed name d args hd _ hlen _ ih =>
    rw [Ty.subst, Ty.subst, Ty.substAll_eq_map, Ty.substAll_eq_map]
    refine .node hd fun k q hq => ?_
    grind [Ty.argument]
  | @self forth fixed t _ hid _ ih =>
    cases forth with
    | true => exact .self ih
    | false => exact .selfBack

end

theorem IsSimple.over_written (hp : p.Grown) {n : Node} (hn : p.Has n) (h : p.IsSimple n) : (p.written n).Over p := by
  obtain ⟨⟨hover, heq⟩, -⟩ := keeps_typeExpressionType hp hn h.isTypeExpression _ (since_fresh p)
  exact heq (.type h) ▸ hover

/-- What a class that passes its parameters on as it may says it is. -/
theorem Grown.superExpression (hp : p.Grown) {s : Node} (hc : p.Has c) (h : p.passesOn c)
    (hs : s ∈ p.superExpressions c) : p.IsSimple s ∧ (∃ k, p.denoted? s = some k) ∧
      (p.written s).classId? = (p.denoted? s).map (·.id) ∧ p.Suits c (fun _ _ => true) true false (p.written s) := by
  have hall := all_eq_true.mp h s hs
  simp only [Bool.and_eq_true] at hall
  obtain ⟨⟨hnames, hdenoted⟩, hsuits⟩ := hall
  have hsimple := isSimple_superExpression hc hs hnames
  have hhas := (hc.superExpression hs).1
  exact ⟨hsimple, Option.isSome_iff_exists.mp hdenoted, (hsimple.made hp hhas).1,
    .of_suits _ (hsimple.over_written hp hhas) hsuits⟩

/-- Every class passes its parameters on as it may, and none is above itself. -/
structure Upright (p : Program) : Prop where
  grown : p.Grown
  passes : ∀ c, p.Has c → p.passesOn c
  acyclic : ∀ c, p.Has c → ¬ TransGen p.Under c c

theorem classId?_subst {m : Ty.Substitution} (h : t.classId?.isSome) : (t.subst m).classId? = t.classId? := by
  cases t <;> cases h
  rfl

theorem Upright.mem_supers (hp : p.Upright) (hc : p.Has c) :
    s ∈ p.supers c args ↔ ∃ t ∈ p.superExpressions c, (p.written t).subst (p.substitution (some c) args) = s := by
  rw [Program.mem_supers]
  refine ⟨fun ⟨t, ht, hs, _⟩ => ⟨t, ht, hs⟩, fun ⟨t, ht, hs⟩ => ⟨t, ht, hs, ?_⟩⟩
  obtain ⟨-, ⟨k, hk⟩, hid, -⟩ := hp.grown.superExpression hc (hp.passes c hc) ht
  grind [classId?_subst]

theorem Upright.under_of_mem_supers (hp : p.Upright) (hc : p.Has c)
    (hs : s ∈ p.supers c args) : ∃ k name args', p.Under c k ∧ p.Has k ∧ s = .object name k.id args' := by
  obtain ⟨t, ht, rfl⟩ := (hp.mem_supers hc).mp hs
  obtain ⟨-, ⟨k, hk⟩, hid, -⟩ := hp.grown.superExpression hc (hp.passes c hc) ht
  have hunder : p.Under c k := ⟨t, ht, hk⟩
  rw [hk] at hid
  cases hw : p.written t <;> rw [hw] at hid <;> cases hid
  exact ⟨k, _, _, hunder, hp.grown.has_of_under hc hunder, rfl⟩

section

variable {L : Bool → Bool → Ty → Ty → Prop} {forth : Bool}

theorem Upright.like_supers (hp : p.Upright) (hc : p.Has c) (hL : ∀ forth b a, L forth true b a → L forth false b a)
    (h : ∀ (k : Nat) (q : Node), (p.typeParameters c)[k]? = some q →
      p.Like L (true != q.shape.variance.turns) q.shape.variance.fixes (.argument bs k) (.argument as k))
    (hs : s ∈ p.supers c bs) : ∃ s' ∈ p.supers c as, p.Like L true false s s' := by
  obtain ⟨t, ht, rfl⟩ := (hp.mem_supers hc).mp hs
  obtain ⟨-, -, -, hsuits⟩ := hp.grown.superExpression hc (hp.passes c hc) ht
  exact ⟨_, (hp.mem_supers hc).mpr ⟨t, ht, rfl⟩, hsuits.like hL h⟩

theorem Compared.replace {c : Ty} (hgiven : ∀ i t b a, R i t b → p.Like L true i b a → R' i t a)
    (hasked : ∀ i b a u, R i b u → p.Like L false i b a → R' i a u) :
    (Compared R v c b → p.Like L (true != v.turns) v.fixes b a → Compared R' v c a) ∧
      (Compared R v b c → p.Like L (false != v.turns) v.fixes b a → Compared R' v a c) := by
  cases v with
  | input => exact ⟨hasked false b a c, hgiven false c b a⟩
  | output | invariant | both => exact ⟨hgiven _ c b a, hasked _ b a c⟩

/-- What is made like a type may take its place, on the side it is meant for, if this can be said of the
parts that are not made alike. -/
theorem Like.replace (hp : p.Upright) {N : Nat} (hloose : ∀ forth b a, L forth true b a → L forth false b a)
    (hgiven : ∀ i b a, L true i b a → ∀ n ≤ N, ∀ t, p.Does n i t b → p.Does (n + m) i t a)
    (hasked : ∀ i b a, L false i b a → ∀ n ≤ N, ∀ u, p.Does n i b u → p.Does (n + m) i a u) :
    ∀ n ≤ N, (∀ i t b a, p.Does n i t b → p.Like L true i b a → p.Does (n + m) i t a) ∧
      ∀ i b a u, p.Does n i b u → p.Like L false i b a → p.Does (n + m) i a u := by
  intro n hn
  induction n with
  | zero => exact ⟨fun _ _ _ _ h => h.elim, fun _ _ _ _ h => h.elim⟩
  | succ n ih =>
    obtain ⟨ihgiven, ihasked⟩ := ih (by omega)
    rw [Nat.succ_add]
    constructor
    · intro i t b a hdoes hlike
      cases hlike with
      | leaf h => grind
      | @node _ _ name name' c bs as hc h =>
        obtain ⟨_, d, ts, rfl, hd, ⟨rfl, hargs⟩ | ⟨hne, rfl, s, hs, hdoes⟩⟩ := Fits.assignee hc hdoes
        · exact Fits.same hc fun k q hq => (Compared.replace ihgiven ihasked).1 (hargs k q hq) (h k q hq)
        · obtain ⟨s', hs', hlike⟩ := hp.like_supers hc hloose h hs
          exact Fits.above hd hc hne rfl hs' (ihgiven _ _ _ _ hdoes hlike)
      | self h =>
        cases hdoes with
        | selves => exact Fits.selves
        | self ht hdoes => exact Fits.self ht (ihgiven _ _ _ _ hdoes h)
    · intro i b a u hdoes hlike
      cases hlike with
      | leaf h => grind
      | @node _ _ name name' c bs as hc h =>
        obtain ⟨v, rfl, hv⟩ | ⟨_, d, us, rfl, hd, ⟨rfl, hargs⟩ | ⟨hne, rfl, s, hs, hbs⟩⟩ :=
          Fits.assigned hc hdoes
        · exact Fits.self nofun (ihasked _ _ _ _ hv (.node hc h))
        · exact Fits.same hc fun k q hq => (Compared.replace ihgiven ihasked).2 (hargs k q hq) (h k q hq)
        · exact Fits.above hc hd hne rfl hs (ihasked _ _ _ _ hbs (.node hc h))
      | selfBack =>
        cases hdoes with
        | selves => exact Fits.selves
        | self ht => exact absurd rfl (ht _)

end

/-! ### Transitivity -/

theorem Does.under (hp : p.Upright) {name' : String} {d : Node} (hd : p.Has d)
    (hc : p.Has c) (h : p.Does n i (.object name c.id as) (.object name' d.id bs)) : ReflTransGen p.Under d c := by
  induction n generalizing i name' d bs with
  | zero => exact h.elim
  | succ n ih =>
    obtain ⟨_, c', _, heq, hc', hcase⟩ := Fits.assignee hd h
    injection heq with _ hid _
    obtain rfl := hc.eq_of_id hc' hid
    obtain ⟨rfl, -⟩ | ⟨-, -, s, hs, hdoes⟩ := hcase
    · exact .refl
    · obtain ⟨k, _, _, hunder, hk, rfl⟩ := hp.under_of_mem_supers hd hs
      exact .head hunder (ih hk hdoes)

theorem Closed.arguments (hc : p.Has c) (h : (Ty.object name c.id args).Closed p) :
    args.length = (p.typeParameters c).length ∧ ∀ t ∈ args, t.Closed p := by
  generalize ht : Ty.object name c.id args = t at h
  cases h with
  | object hc' _ hlen ha =>
    injection ht with _ hid hargs
    obtain rfl := hc.eq_of_id hc' hid
    subst hargs
    exact ⟨hlen, ha⟩

theorem Closed.argument (hc : p.Has c)
    (h : (Ty.object name c.id args).Closed p) {k : Nat} {q : Node} (hq : (p.typeParameters c)[k]? = some q) :
    (Ty.argument args k).Closed p := by grind [Closed.arguments, Ty.argument_mem]

/-- A closed type and one that does for it, or that it does for, by less than `m` steps. -/
def Near (p : Program) (m : Nat) (forth i : Bool) (x y : Ty) : Prop :=
  x.Closed p ∧ if forth then p.Does m i x y else p.Does m i y x

theorem Near.loosen {forth : Bool} {x y : Ty} (h : p.Near m forth true x y) : p.Near m forth false x y := by
  cases forth
  · exact ⟨h.1, Does.loosen h.2⟩
  · exact ⟨h.1, Does.loosen h.2⟩

theorem Near.like {name' : String} (hc : p.Has c) (hb : (Ty.object name c.id bs).Closed p)
    (h : ∀ k q, (p.typeParameters c)[k]? = some q →
      Compared (p.Does m) q.shape.variance (.argument bs k) (.argument as k)) :
    p.Like (p.Near m) true i (.object name c.id bs) (.object name' c.id as) := by
  refine .node hc fun k q hq => .leaf ⟨Closed.argument hc hb hq, ?_⟩
  have hcompared := h k q hq
  cases hv : q.shape.variance <;> rw [hv] at hcompared <;> exact hcompared

/-- What does for a closed type does for what that does for. -/
theorem Does.trans (hp : p.Upright) (hb : b.Closed p) (htb : p.Does n i t b) (hba : p.Does m i b a) :
    p.Does (n + m) i t a := by
  induction hN : n + m using Nat.strong_induction_on generalizing n m i t b a with
  | _ N ih =>
  subst hN
  cases n with
  | zero => exact htb.elim
  | succ n =>
  cases m with
  | zero => exact hba.elim
  | succ m =>
    have hclosed := hb
    obtain ⟨hc, -, -, -⟩ := hb
    obtain ⟨_, e, ts, rfl, he, -⟩ := Fits.assignee hc htb
    obtain ⟨v, rfl, hv⟩ | ⟨_, d, as, rfl, hd, ⟨rfl, hargs⟩ | ⟨hne, rfl, s, hs, hbs⟩⟩ := Fits.assigned hc hba
    · exact Fits.self nofun (ih (n + 1 + m) (by omega) hclosed htb hv rfl)
    · -- The arguments are closed, and comparing them takes less.
      have hreplace := Like.replace hp (L := p.Near m) (N := n + 1) (m := m) (fun _ _ _ => Near.loosen)
        (fun i x y h k hk t htx => ih (k + m) (by omega) h.1 htx h.2 rfl)
        (fun i x y h k hk u hxu => ih (k + m) (by omega) h.1 h.2 hxu (Nat.add_comm m k)) (n + 1) le_rfl
      exact (hreplace.1 _ _ _ _ htb (Near.like hc hclosed hargs)).succ
    · refine Fits.above he hd ?_ rfl hs (ih (n + 1 + m) (by omega) hclosed htb hbs rfl)
      rintro rfl
      obtain ⟨k, _, _, hunder, hk, rfl⟩ := hp.under_of_mem_supers hd hs
      exact hp.acyclic e he (.head' hunder ((Does.under hp hk hc hbs).trans (Does.under hp hc he htb)))

end Program

end Parlance
