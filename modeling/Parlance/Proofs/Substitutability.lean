import Parlance.Proofs.Verdicts
/-!
What a type that does for another understands: a behaviour for each of the other's, that may take its place.
-/
open List

namespace Parlance

open Relation

namespace Ty

mutual

def alike : Ty → Ty → Bool
  | parameter _ i _, parameter _ j _ => i == j
  | object _ i as, object _ j bs => i == j && alikeAll as bs
  | self _, self _ => true
  | _, _ => false

def alikeAll : List Ty → List Ty → Bool
  | [], [] => true
  | a :: as, b :: bs => alike a b && alikeAll as bs
  | _, _ => false

end

mutual

def isClosed (p : Program) : Ty → Bool
  | object _ id args =>
    (p.node? id).any (fun c => c.shape.isClass && args.length == (p.typeParameters c).length) && areClosed p args
  | _ => false

def areClosed (p : Program) : List Ty → Bool
  | [] => true
  | t :: ts => isClosed p t && areClosed p ts

end

variable {p : Program} {s t : Ty} {name : String} {id : Nat} {args : List Ty}

theorem alikeAll_iff {as bs : List Ty} : alikeAll as bs ↔
    as.length = bs.length ∧ ∀ k < bs.length, (argument as k).alike (argument bs k) := by
  induction as generalizing bs with
  | nil => cases bs <;> simp [alikeAll]
  | cons a as ih =>
    cases bs with
    | nil => simp [alikeAll]
    | cons b bs =>
      rw [alikeAll, Bool.and_eq_true, ih, length_cons, length_cons, Nat.add_right_cancel_iff,
        and_left_comm, Nat.forall_lt_succ_left]
      rfl

theorem exists_of_alike_parameter
    (h : t.alike (parameter name id args)) : ∃ name' args', t = parameter name' id args' := by
  cases t <;> simp_all [alike]

theorem exists_of_alike_object (h : t.alike (object name id args)) :
    ∃ name' args', t = object name' id args' ∧ alikeAll args' args := by
  cases t <;> simp_all [alike]

theorem exists_of_alike_self {u : Ty} (h : t.alike (self u)) : ∃ v, t = self v := by
  cases t <;> simp_all [alike]

theorem argument_map {f : Ty → Ty} (hf : f unknown = unknown) (ts : List Ty) (k : Nat) :
    argument (ts.map f) k = f (argument ts k) := by grind [argument]

theorem areClosed_iff {ts : List Ty} : areClosed p ts ↔ ∀ t ∈ ts, isClosed p t := by
  induction ts with
  | nil => simp [areClosed]
  | cons t ts ih => simp [areClosed, ih]

theorem Closed.of_isClosed : (t : Ty) → t.Over p → t.isClosed p → t.Closed p
  | .object _ _ args, .object hc ha, h => by
    rw [isClosed, hc.at_, Bool.and_eq_true, Option.any_some, Bool.and_eq_true, beq_iff_eq, areClosed_iff] at h
    exact Closed.object hc h.1.1 h.1.2 fun t ht => Closed.of_isClosed t (ha t ht) (h.2 t ht)

theorem Closed.subst (h : t.Closed p) (m : Substitution) : t.subst m = t := by
  induction h with
  | object _ _ _ _ ih => rw [Ty.subst, substAll_eq_map, List.map_congr_left ih, map_id']

theorem Closed.bindSelf (h : t.Closed p) (r : Ty) : bindSelf r t = t := by
  induction h with
  | object _ _ _ _ ih => rw [Ty.bindSelf, bindSelfAll_eq_map, List.map_congr_left ih, map_id']

theorem Proper.bindSelf (h : t.Proper p) (hs : s.Proper p) : (bindSelf s t).Proper p := by
  induction h with
  | object hc hclass hlen _ ih =>
    rw [Ty.bindSelf, bindSelfAll_eq_map]
    exact .object hc hclass (by rw [length_map, hlen]) (forall_mem_map.mpr ih)
  | self => exact hs

theorem Proper.does (h : t.Proper p) : ∃ n, ∀ i, p.Does n i t t := by
  induction h with
  | @object name c args hc _ hlen _ ih =>
    obtain ⟨n, hn⟩ := Program.exists_bound (P := fun t n => ∀ i, p.Does n i t t)
      (fun t n k h hnk i => (h i).mono hnk) ih
    refine ⟨n + 1, fun i => Program.Fits.same hc fun k q hq => ?_⟩
    exact .of_refl (hn _ (argument_mem (hlen ▸ (List.getElem?_eq_some_iff.mp hq).1)))
  | self => exact ⟨1, fun i => Program.Fits.selves⟩

end Ty

namespace Program

variable {p : Program} {n m k : Nat} {i forth fixed : Bool} {s t u x y a b : Ty} {c d : Node} {base : Memo}
  {as bs : List Ty} {free : Bool → Bool → Bool} {w b' : Behaviour} {name : String} {g : Behaviour}

/-! ### Closed types -/

theorem Suits.closed (h : ∀ (k : Nat) (q : Node), (p.typeParameters c)[k]? = some q → (Ty.argument as k).Closed p)
    (hs : p.Suits c (fun _ _ => false) forth fixed t) : (t.subst (p.substitution (some c) as)).Closed p := by
  induction hs with
  | parameter hq _ =>
    obtain ⟨k, hk, hlookup⟩ := lookup_substitution hq
    simp only [Ty.subst, hlookup]
    exact h k _ hk
  | @object _ _ _ d ts hd hclass hlen _ ih =>
    rw [Ty.subst, Ty.substAll_eq_map]
    refine .object hd hclass (by rw [length_map, hlen]) (forall_mem_map.mpr fun t ht => ?_)
    grind [List.getElem?_of_mem]
  | self hf => cases hf

/-! ### Repertoires -/

/-- The behaviours of a class, in its type parameters and `Self`. -/
def repertoire (p : Program) (c : Node) : List Behaviour := ((p.classBehavioursIn p.patience c).run (.fresh p)).1

theorem keeps_classBehaviours (hp : p.Grown) (hc : p.Has c) (hd : p.IsDeclared c)
    (hk : p.patience - 2 ≤ k) : Keeps (p.Since base) (p.classBehavioursIn k c) fun bs =>
      p.Found bs ∧ p.Full c bs ∧ p.IsRepertoire c bs :=
  (hp.kept k .class_ _ c hc ((p.clear_idle base).allowsClass c) (by have := p.patience_idle base; omega)).mono
    fun _ h => ⟨h.found, h.full not_mem_nil hd⟩

theorem repertoire_spec (hp : p.Grown) (hc : p.Has c) (hd : p.IsDeclared c) :
    p.Found (p.repertoire c) ∧ p.Full c (p.repertoire c) ∧ p.IsRepertoire c (p.repertoire c) :=
  (keeps_classBehaviours hp hc hd (Nat.sub_le _ _) _ (since_fresh p)).1

theorem keeps_repertoire (hp : p.Grown) (hc : p.Has c) (hd : p.IsDeclared c)
    (hk : p.patience - 2 ≤ k) : Keeps (p.Since base) (p.classBehavioursIn k c) (· = p.repertoire c) := by
  refine (keeps_classBehaviours hp hc hd hk).mono fun bs hbs => ?_
  obtain ⟨i, hi⟩ := hbs.2.2
  obtain ⟨j, hj⟩ := (repertoire_spec hp hc hd).2.2
  rw [← hi (max i j) (Nat.le_max_left i j), hj (max i j) (Nat.le_max_right i j)]

/-- A behaviour of a class as `Self` of a type of it has it. -/
def seen (p : Program) (c : Node) (args : List Ty) (receiver : Ty) (b : Behaviour) : Behaviour :=
  (b.subst (p.substitution (some c) args)).bindSelf (.self receiver)

theorem keeps_selfBehaviours (hp : p.Grown) (hc : p.Has c) (hd : p.IsDeclared c) (name : String) (args : List Ty) :
    Keeps (p.Since base) (p.behaviours (.self (.object name c.id args)))
      (· = (p.repertoire c).map (p.seen c args (.object name c.id args))) := by
  obtain ⟨k, hk⟩ : ∃ k, p.patience = k + 2 := ⟨p.patience - 2, by have := p.patience_idle base; omega⟩
  rw [behaviours, hk, behavioursIn, objectBehavioursIn, hc.at_]
  refine .bind (keeps_repertoire hp hc hd (by omega)) fun bs hbs => .pure ?_
  rw [hbs]
  rfl

/-! ### Behaviours that repeat each other -/

/-- Where `Self` may stand: not where types have to be of the same class as what is given. -/
def selfMoves (forth fixed : Bool) : Bool := !(forth && fixed)

/-- In a behaviour of a class its type parameters and `Self` stand where they may. -/
def suitsBehaviour (p : Program) (c : Node) (b : Behaviour) : Bool :=
  b.arguments.all (p.suits c selfMoves false false) && p.suits c selfMoves true false b.result

def repeats (b b' : Behaviour) : Bool := Ty.alikeAll b.arguments b'.arguments && b.result.alike b'.result

def isClosedBehaviour (p : Program) (b : Behaviour) : Bool := Ty.areClosed p b.arguments && b.result.isClosed p

theorem Suits.alike (h : p.Suits c free forth fixed t) : t.alike t := by
  induction h with
  | parameter => simp [Ty.alike]
  | @object _ _ _ d args _ _ hlen _ ih =>
    rw [Ty.alike, beq_self_eq_true, Bool.true_and, Ty.alikeAll_iff]
    exact ⟨rfl, fun k hk => ih k _ _ (List.getElem?_eq_getElem (hlen ▸ hk)) (Ty.getElem?_argument hk)⟩
  | self => rfl

theorem Suits.subst_subst (h : p.Suits c free forth fixed t) (args : List Ty) (m : Ty.Substitution) :
    (t.subst (p.substitution (some c) args)).subst m = t.subst (p.substitution (some c) (args.map (Ty.subst m))) := by
  induction h with
  | parameter hq _ =>
    obtain ⟨k, -, hlookup⟩ := lookup_substitution hq
    grind [Ty.subst, Ty.argument_map]
  | @object _ _ _ d ts hd hclass hlen _ ih =>
    rw [Ty.subst, Ty.subst, Ty.subst, Ty.substAll_eq_map, Ty.substAll_eq_map, Ty.substAll_eq_map, List.map_map]
    grind [List.map_congr_left, List.getElem?_of_mem]
  | self _ _ _ ih => rw [Ty.subst, Ty.subst, Ty.subst, ih]

/-! ### What may take the place of something -/

/-- Parts that may take the place of others: closed types that do, and `Self` of a type that does. -/
def Stands (p : Program) (m : Nat) (s t : Ty) (forth fixed : Bool) (b a : Ty) : Prop :=
  p.Near m forth fixed b a ∨ b = .self s ∧ a = .self t ∧ selfMoves forth fixed

/-- The second type may stand for what is given instead of the first if `forth`, otherwise for what is
asked for. -/
def Replaces (p : Program) (m : Nat) : Bool → Ty → Ty → Prop
  | true, b, a => ∀ n t, p.Does n false t b → p.Does (n + m) false t a
  | false, b, a => ∀ n t, p.Does n false b t → p.Does (n + m) false a t

theorem Stands.loosen (h : p.Stands m s t forth true b a) : p.Stands m s t forth false b a :=
  h.imp Near.loosen fun h => ⟨h.1, h.2.1, by cases forth <;> rfl⟩

theorem Near.replaces (hp : p.Upright) (h : p.Near m forth false b a) : p.Replaces m forth b a := by
  cases forth with
  | true => exact fun n t ht => ht.trans hp h.1 h.2
  | false => exact fun n t ht => Nat.add_comm m n ▸ Does.trans hp h.1 h.2 ht

theorem Stands.replaces (hp : p.Upright) (hs : s.Closed p) (hst : p.Does m false s t)
    (h : p.Like (p.Stands m s t) forth false b a) : p.Replaces m forth b a := by
  have hgiven (i : Bool) (b a : Ty) (h : p.Stands m s t true i b a) (n : Nat) (x : Ty) (hx : p.Does n i x b) :
      p.Does (n + m) i x a := by
    obtain h | ⟨rfl, rfl, hi⟩ := h
    · exact hx.trans hp h.1 h.2
    · obtain rfl : i = false := by simpa [selfMoves] using hi
      cases n with
      | zero => exact hx.elim
      | succ n =>
        rw [Nat.succ_add]
        cases hx with
        | selves => exact Fits.selves
        | self hne hx => exact Fits.self hne (Does.trans hp hs hx hst)
  have hasked (i : Bool) (b a : Ty) (h : p.Stands m s t false i b a) (n : Nat) (x : Ty) (hx : p.Does n i b x) :
      p.Does (n + m) i a x := by
    obtain h | ⟨rfl, rfl, -⟩ := h
    · exact Nat.add_comm m n ▸ Does.trans hp h.1 h.2 hx
    · cases n with
      | zero => exact hx.elim
      | succ n =>
        rw [Nat.succ_add]
        cases hx with
        | selves => exact Fits.selves
        | self hne => exact absurd rfl (hne _)
  have hreplace (n : Nat) := Like.replace hp (L := p.Stands m s t) (N := n) (m := m) (fun _ _ _ => Stands.loosen)
    (fun i b a h k _ x => hgiven i b a h k x) (fun i b a h k _ x => hasked i b a h k x) n le_rfl
  cases forth with
  | true => exact fun n x hx => (hreplace n).1 _ _ _ _ hx h
  | false => exact fun n x hx => (hreplace n).2 _ _ _ _ hx h

/-- Types that are alike become so that the one may stand for the other, when arguments that do are put
in and `Self` is bound. -/
theorem Suits.stands (hargs : ∀ (k : Nat) (q : Node), (p.typeParameters d)[k]? = some q →
      (Ty.argument as k).Closed p ∧ (Ty.argument bs k).Closed p ∧
        Compared (p.Does m) q.shape.variance (.argument as k) (.argument bs k))
    (hy : p.Suits d selfMoves forth fixed y) (hxy : x.alike y) :
    p.Like (p.Stands m s t) forth fixed (Ty.bindSelf (.self s) (x.subst (p.substitution (some d) as)))
      (Ty.bindSelf (.self t) (y.subst (p.substitution (some d) bs))) := by
  induction hy generalizing x with
  | @parameter forth fixed _ id _ q hq hv =>
    obtain ⟨_, _, rfl⟩ := Ty.exists_of_alike_parameter hxy
    obtain ⟨k, hk, hlookup⟩ := lookup_substitution hq
    obtain ⟨ha, hb, hcompared⟩ := hargs k q hk
    simp only [Ty.subst, hlookup]
    rw [ha.bindSelf, hb.bindSelf]
    refine .leaf (.inl ⟨ha, ?_⟩)
    revert hv hcompared
    generalize q.shape.variance = v
    cases v <;> cases forth <;> cases fixed <;> intro hv hcompared <;>
      first | cases hv <;> done | exact hcompared | exact Does.loosen hcompared
  | @object _ _ _ c ys hc _ hlen _ ih =>
    obtain ⟨_, xs, rfl, hall⟩ := Ty.exists_of_alike_object hxy
    obtain ⟨-, hall⟩ := Ty.alikeAll_iff.mp hall
    simp only [Ty.subst, Ty.bindSelf, Ty.substAll_eq_map, Ty.bindSelfAll_eq_map, List.map_map]
    refine .node hc fun k q hq => ?_
    have hlt := hlen ▸ (List.getElem?_eq_some_iff.mp hq).1
    rw [Ty.argument_map (by simp [Ty.subst, Ty.bindSelf]), Ty.argument_map (by simp [Ty.subst, Ty.bindSelf])]
    exact ih k q _ hq (Ty.getElem?_argument hlt) (hall k hlt)
  | self hf =>
    obtain ⟨_, rfl⟩ := Ty.exists_of_alike_self hxy
    exact .leaf (.inr ⟨rfl, rfl, hf⟩)

/-! ### Behaviours in place of others -/

/-- A behaviour that accepts at least what the other does and gives back what acts as its result. -/
structure Acts (p : Program) (m : Nat) (b b' : Behaviour) : Prop where
  selector : b'.selector = b.selector
  length : b'.arguments.length = b.arguments.length
  arguments : ∀ k < b.arguments.length, p.Replaces m false (.argument b.arguments k) (.argument b'.arguments k)
  result : p.Replaces m true b.result b'.result

theorem Acts.trans {m' : Nat} {b b'' : Behaviour} (h : p.Acts m b b') (h' : p.Acts m' b' b'') :
    p.Acts (m + m') b b'' where
  selector := h'.selector.trans h.selector
  length := h'.length.trans h.length
  arguments := fun k hk n t ht => by
    rw [← Nat.add_assoc]
    exact h'.arguments k (h.length ▸ hk) _ t (h.arguments k hk n t ht)
  result := fun n t ht => by
    rw [← Nat.add_assoc]
    exact h'.result _ t (h.result n t ht)

theorem argument_seen (b : Behaviour) (k : Nat) : Ty.argument (p.seen c as s b).arguments k =
    Ty.bindSelf (.self s) ((Ty.argument b.arguments k).subst (p.substitution (some c) as)) := by
  simp only [seen, Behaviour.bindSelf, Behaviour.subst, Ty.substAll_eq_map, Ty.bindSelfAll_eq_map]
  grind [Ty.argument_map, Ty.bindSelf, Ty.subst]

theorem length_seen (b : Behaviour) : (p.seen c as s b).arguments.length = b.arguments.length := by
  simp [seen, Behaviour.bindSelf, Behaviour.subst, Ty.substAll_eq_map, Ty.bindSelfAll_eq_map]

structure SuitsBehaviour (p : Program) (c : Node) (b : Behaviour) : Prop where
  arguments : ∀ t ∈ b.arguments, p.Suits c selfMoves false false t
  result : p.Suits c selfMoves true false b.result

theorem SuitsBehaviour.argument {b : Behaviour} (h : p.SuitsBehaviour c b) (hk : k < b.arguments.length) :
    p.Suits c selfMoves false false (.argument b.arguments k) :=
  h.arguments _ (Ty.argument_mem hk)

/-- A behaviour may take the place of one that it repeats, seen from types that do. -/
theorem SuitsBehaviour.acts (hp : p.Upright) (hg : p.SuitsBehaviour d g)
    (hargs : ∀ (k : Nat) (q : Node), (p.typeParameters d)[k]? = some q →
      (Ty.argument as k).Closed p ∧ (Ty.argument bs k).Closed p ∧
        Compared (p.Does m) q.shape.variance (.argument as k) (.argument bs k))
    (hs : s.Closed p) (hst : p.Does m false s t) (hsel : g.selector = w.selector) (hrepeats : repeats w g) :
    p.Acts m (p.seen d as s w) (p.seen d bs t g) := by
  obtain ⟨harguments, hresult⟩ := Bool.and_eq_true_iff.mp hrepeats
  obtain ⟨hlen, hall⟩ := Ty.alikeAll_iff.mp harguments
  refine ⟨hsel, by rw [length_seen, length_seen, hlen], fun k hk => ?_, ?_⟩
  · rw [length_seen, hlen] at hk
    rw [argument_seen, argument_seen]
    exact Stands.replaces hp hs hst ((hg.argument hk).stands hargs (hall k hk))
  · exact Stands.replaces hp hs hst (hg.result.stands hargs hresult)

structure Matches (p : Program) (n : Nat) (b b' : Behaviour) : Prop where
  arguments : ∀ k < b.arguments.length, p.Does n false (.argument b'.arguments k) (.argument b.arguments k)
  result : p.Does n false b.result b'.result

structure ProperBehaviour (p : Program) (b : Behaviour) : Prop where
  arguments : ∀ t ∈ b.arguments, t.Proper p
  result : b.result.Proper p

theorem Upright.keeps_behaviourVerdict (hp : p.Upright) (n : Nat) {b : Behaviour} (hsel : b'.selector = b.selector)
    (hlen : b'.arguments.length = b.arguments.length) (hb : p.ProperBehaviour b) (hb' : p.ProperBehaviour b') :
    Keeps (p.Since base) (p.refusalIn n b.type b'.type false).run fun o =>
      (o = some none → p.Matches n b b') ∧ ∀ r, o = some (some r) → ∀ k, ¬ p.Matches k b b' := by
  cases n with
  | zero => exact .pure (by simp)
  | succ n =>
    have hrun : p.refusalIn (n + 1) b.type b'.type false = behaviourRefusal (p.refusalIn n) b b' false := rfl
    rw [hrun, behaviourRefusal, if_neg (by simp [hsel])]
    refine keeps_attempt (keeps_attempts
      (A := fun e => p.Does n false (.argument b'.arguments e.2) (.argument b.arguments e.2))
      (B := fun e => ∀ k, ¬ p.Does k false (.argument b'.arguments e.2) (.argument b.arguments e.2)) fun e he => ?_)
      (by simp) fun rs hrs => ?_
    · have hget := mk_mem_zipIdx_iff_getElem?.mp he
      have hlt := (List.getElem?_eq_some_iff.mp hget).1
      rw [Ty.argument_of_getElem? hget]
      exact (hp.keeps_refusalIn n (hb'.arguments _ (Ty.argument_mem (hlen ▸ hlt)))
        (hb.arguments _ (mem_of_getElem? hget)) false).mono fun _ => Verdict.cases
    · refine keeps_attempt (hp.keeps_refusalIn n hb.result hb'.result false) (by simp) fun o ho => .pure ?_
      obtain ⟨rfl, hall⟩ | ⟨hne, e, he, hnot⟩ := hrs rs rfl
      · cases o with
        | none =>
          refine ⟨fun _ => ⟨fun k hk => ?_, ho.succ⟩, by simp⟩
          exact (hall (_, k) (mk_mem_zipIdx_iff_getElem?.mpr (Ty.getElem?_argument hk))).succ
        | some r => exact ⟨by simp, fun _ _ k hk => ho k hk.result⟩
      · have hempty : (rs ++ o.toList).isEmpty = false := by simp [hne]
        rw [hempty]
        have hlt := (List.getElem?_eq_some_iff.mp (mk_mem_zipIdx_iff_getElem?.mp he)).1
        exact ⟨by simp, fun _ _ k hk => hnot k (hk.arguments e.2 hlt)⟩

/-! ### Orderly programs -/

/-- The behaviours that a class has from a type it says it is, where it says nothing in their place. -/
def inherited (p : Program) (t : Node) : List Behaviour :=
  match p.written t with
  | .object _ id args =>
    ((p.node? id).elim [] p.repertoire).map (·.subst (p.substitution (p.node? id) args))
  | _ => []

/-- What a class answers with in place of what it has from a type that it says it is repeats that, or both
are closed and it was accepted for it. -/
def Refines (p : Program) (c t : Node) : Prop :=
  ∀ b ∈ p.inherited t, ∀ g ∈ p.repertoire c, g.selector = b.selector → repeats b g ∨
    (p.isClosedBehaviour b ∧ p.isClosedBehaviour g ∧ g.arguments.length = b.arguments.length) ∧
      ∃ qs : List (Question p), p.Accepts b.type g.type (after qs)

def saysNoSelf (p : Program) (c : Node) : Bool :=
  (p.superExpressions c).all fun t => p.suits c (fun _ _ => false) true false (p.written t)

/-- Classes whose behaviours are written down, are of a kind that varies with the class, and keep to what
the class says it is. -/
structure Orderly (p : Program) : Prop extends Upright p where
  plain : ∀ c, p.Has c → p.saysNoSelf c
  declared : ∀ c, p.Has c → p.IsDeclared c
  suits : ∀ c, p.Has c → ∀ b ∈ p.repertoire c, p.suitsBehaviour c b
  refines : ∀ c, p.Has c → ∀ t ∈ p.superExpressions c, p.Refines c t

theorem Orderly.suitsBehaviour (hp : p.Orderly) (hc : p.Has c) (hw : w ∈ p.repertoire c) : p.SuitsBehaviour c w := by
  obtain ⟨harguments, hresult⟩ := Bool.and_eq_true_iff.mp (hp.suits c hc w hw)
  have hover := (repertoire_spec hp.grown hc (hp.declared c hc)).1.over_ w hw
  exact ⟨fun t ht => .of_suits t (hover.arguments t ht) (all_eq_true.mp harguments t ht),
    .of_suits _ hover.result hresult⟩

theorem Closed.behaviour (hover : w.Over p) (h : p.isClosedBehaviour w) :
    (∀ t ∈ w.arguments, t.Closed p) ∧ w.result.Closed p := by
  obtain ⟨harguments, hresult⟩ := Bool.and_eq_true_iff.mp h
  exact ⟨fun t ht => .of_isClosed t (hover.arguments t ht) (Ty.areClosed_iff.mp harguments t ht),
    .of_isClosed _ hover.result hresult⟩

theorem acts_of_accepts (hp : p.Upright) (hw : w.Over p) (hg : g.Over p)
    (hsel : g.selector = w.selector) (hlen : g.arguments.length = w.arguments.length)
    (hwclosed : p.isClosedBehaviour w) (hgclosed : p.isClosedBehaviour g) {qs : List (Question p)}
    (h : p.Accepts w.type g.type (after qs)) : ∃ m, p.Acts m (p.seen d as s w) (p.seen d bs t g) := by
  obtain ⟨hwargs, hwres⟩ := Closed.behaviour hw hwclosed
  obtain ⟨hgargs, hgres⟩ := Closed.behaviour hg hgclosed
  obtain ⟨n, hn⟩ := h
  have hmatches := (hp.keeps_behaviourVerdict n hsel hlen ⟨fun t ht => (hwargs t ht).proper, hwres.proper⟩
    ⟨fun t ht => (hgargs t ht).proper, hgres.proper⟩ _ (since_after hp.grown qs)).1.1 hn
  refine ⟨n, hsel, by rw [length_seen, length_seen, hlen], fun k hk => ?_, ?_⟩
  · rw [length_seen] at hk
    have hwk := hwargs _ (Ty.argument_mem hk)
    have hgk := hgargs _ (Ty.argument_mem (hlen ▸ hk))
    rw [argument_seen, argument_seen, hwk.subst, hgk.subst, hwk.bindSelf, hgk.bindSelf]
    exact Near.replaces hp ⟨hwk, hmatches.arguments k hk⟩
  · show p.Replaces n true (Ty.bindSelf _ (w.result.subst _)) (Ty.bindSelf _ (g.result.subst _))
    rw [hwres.subst, hgres.subst, hwres.bindSelf, hgres.bindSelf]
    exact Near.replaces hp ⟨hwres, hmatches.result⟩

theorem SuitsBehaviour.seen_subst (hw : p.SuitsBehaviour c w) (args : List Ty) :
    p.seen d bs s (w.subst (p.substitution (some c) args)) =
      p.seen c (args.map (Ty.subst (p.substitution (some d) bs))) s w := by
  simp only [seen, Behaviour.bindSelf, Behaviour.subst, Ty.substAll_eq_map, Ty.bindSelfAll_eq_map, List.map_map,
    Behaviour.mk.injEq, true_and]
  refine ⟨List.map_congr_left fun t ht => ?_, ?_⟩
  · exact congrArg _ ((hw.arguments t ht).subst_subst args _)
  · rw [hw.result.subst_subst]

/-- A class has a behaviour for each of those of a type that it says it is, which may take its place. -/
theorem Orderly.step (hp : p.Orderly) (hd : p.Has d) (ht : (Ty.object name d.id bs).Closed p)
    (hs : s ∈ p.supers d bs) : ∃ k name' args, s = .object name' k.id args ∧ p.Has k ∧ s.Closed p ∧
      ∀ w ∈ p.repertoire k, ∃ g ∈ p.repertoire d, ∃ m,
        p.Acts m (p.seen k args s w) (p.seen d bs (.object name d.id bs) g) := by
  have hup := hp.toUpright
  obtain ⟨e, he, rfl⟩ := (hup.mem_supers hd).mp hs
  obtain ⟨hsimple, ⟨k, hk⟩, hid, -⟩ := hp.grown.superExpression hd (hp.passes d hd) he
  have hplain := Suits.of_suits _ (hsimple.over_written hp.grown (hd.superExpression he).1)
    (all_eq_true.mp (hp.plain d hd) e he)
  have hclosed := hplain.closed fun k q hq => Closed.argument hd ht hq
  have hunder : p.Under d k := ⟨e, he, hk⟩
  have hkhas := hp.grown.has_of_under hd hunder
  obtain ⟨hfound, hfull, -⟩ := repertoire_spec hp.grown hd (hp.declared d hd)
  obtain ⟨hkfound, hkfull, -⟩ := repertoire_spec hp.grown hkhas (hp.declared k hkhas)
  rw [hk] at hid
  cases hw : p.written e <;> rw [hw] at hid <;> cases hid
  rename_i name' args
  rw [hw] at hclosed hs
  rw [Ty.subst, Ty.substAll_eq_map] at hclosed hs ⊢
  refine ⟨k, name', _, rfl, hkhas, hclosed, fun w hwmem => ?_⟩
  obtain ⟨g, hg, hsel⟩ : ∃ g ∈ p.repertoire d, g.selector = w.selector := by
    obtain ⟨j, hj, hm⟩ := (hkfull w.selector).mp ⟨w, hwmem, rfl⟩
    exact (hfull w.selector).mpr ⟨j, .head (is_of_denoted hd he hk) hj, hm⟩
  refine ⟨g, hg, ?_⟩
  rw [← (hp.suitsBehaviour hkhas hwmem).seen_subst]
  have hinherited : w.subst (p.substitution (some k) args) ∈ p.inherited e := by
    rw [inherited, hw]
    simp only [hkhas.at_, Option.elim_some]
    exact mem_map_of_mem hwmem
  obtain hrepeats | ⟨⟨hwclosed, hgclosed, hlen⟩, qs, haccepts⟩ := hp.refines d hd e he _ hinherited g hg hsel
  · obtain ⟨hlen, hargs⟩ := Closed.arguments hd ht
    obtain ⟨n, hn⟩ := exists_bound (P := fun t n => ∀ i, p.Does n i t t) (fun t n k h hnk i => (h i).mono hnk)
      fun t ht => (hargs t ht).proper.does
    obtain ⟨j, hj⟩ := hclosed.proper.does
    have hne : k ≠ d := by
      rintro rfl
      exact hp.acyclic k hd (.single hunder)
    have hdoes : p.Does (j + 1) false (.object name' k.id _) (.object name d.id bs) :=
      Fits.above hkhas hd hne rfl hs (hj false)
    refine ⟨max n (j + 1), (hp.suitsBehaviour hd hg).acts hup (fun l q hq => ?_) hclosed
      (hdoes.mono (Nat.le_max_right n _)) hsel hrepeats⟩
    have hmem := Ty.argument_mem (hlen ▸ (List.getElem?_eq_some_iff.mp hq).1)
    exact ⟨hargs _ hmem, hargs _ hmem, .of_refl fun i => (hn _ hmem i).mono (Nat.le_max_left n _)⟩
  · refine acts_of_accepts hup ((hkfound.over_ w hwmem).subst ?_) (hfound.over_ g hg) hsel hlen
      hwclosed hgclosed haccepts
    have hover := hsimple.over_written hp.grown (hd.superExpression he).1
    rw [hw] at hover
    exact over_substitution hover.of_object _

/-- A closed type that does for another has a behaviour for each of its behaviours, which may take its
place. -/
theorem Orderly.acts (hp : p.Orderly) {name' : String} (hc : p.Has c) (hd : p.Has d)
    (hs : (Ty.object name c.id as).Closed p) (ht : (Ty.object name' d.id bs).Closed p)
    (h : p.Does n false (.object name c.id as) (.object name' d.id bs)) (hw : w ∈ p.repertoire c) :
    ∃ g ∈ p.repertoire d, ∃ m, p.Acts m (p.seen c as (.object name c.id as) w)
      (p.seen d bs (.object name' d.id bs) g) := by
  have hup := hp.toUpright
  induction n generalizing name' d bs with
  | zero => exact h.elim
  | succ n ih =>
    obtain ⟨_, c', _, heq, hc', hcase⟩ := Fits.assignee hd h
    injection heq with _ hid hargs
    obtain rfl := hc.eq_of_id hc' hid
    subst hargs
    obtain ⟨rfl, hcompared⟩ | ⟨-, -, s, hmem, hdoes⟩ := hcase
    · have hsuits := hp.suitsBehaviour hc hw
      refine ⟨w, hw, n + 1, hsuits.acts hup (fun k q hq => ?_) hs h rfl ?_⟩
      · exact ⟨Closed.argument hc hs hq, Closed.argument hc ht hq,
          (hcompared k q hq).mono fun _ _ _ => Does.succ⟩
      · rw [repeats, Bool.and_eq_true, Ty.alikeAll_iff]
        exact ⟨⟨rfl, fun k hk => (hsuits.argument hk).alike⟩, hsuits.result.alike⟩
    · obtain ⟨k, _, args, rfl, hk, hclosed, hstep⟩ := hp.step hd ht hmem
      obtain ⟨v, hv, m, hacts⟩ := ih hk hclosed hdoes
      obtain ⟨g, hg, m', hacts'⟩ := hstep v hv
      exact ⟨g, hg, m + m', hacts.trans hacts'⟩

theorem Orderly.properBehaviour (hp : p.Orderly) (hc : p.Has c)
    (hs : (Ty.object name c.id as).Closed p) (hw : w ∈ p.repertoire c) :
    p.ProperBehaviour (p.seen c as (.object name c.id as) w) := by
  have hsuits := hp.suitsBehaviour hc hw
  have hself : (Ty.self (.object name c.id as)).Proper p := .self hs.proper rfl
  have hargs (k : Nat) (q : Node) (hq : (p.typeParameters c)[k]? = some q) := (Closed.argument hc hs hq).proper
  refine ⟨fun t ht => ?_, (hsuits.result.proper hargs).bindSelf hself⟩
  simp only [seen, Behaviour.bindSelf, Behaviour.subst, Ty.substAll_eq_map, Ty.bindSelfAll_eq_map, List.map_map] at ht
  obtain ⟨v, hv, rfl⟩ := List.mem_map.mp ht
  exact ((hsuits.arguments v hv).proper hargs).bindSelf hself

theorem Acts.matches_ {b : Behaviour} (h : p.Acts m b b') (hb : p.ProperBehaviour b) : ∃ n, p.Matches n b b' := by
  have hrefl : ∀ t ∈ b.result :: b.arguments, ∃ n, ∀ i, p.Does n i t t :=
    forall_mem_cons.mpr ⟨hb.result.does, fun t ht => (hb.arguments t ht).does⟩
  obtain ⟨n, hn⟩ := exists_bound (fun t n k h hnk i => (h i).mono hnk) hrefl
  refine ⟨n + m, fun k hk => ?_, h.result n _ (hn _ mem_cons_self false)⟩
  exact h.arguments k hk n _ (hn _ (mem_cons_of_mem _ (Ty.argument_mem hk)) false)

theorem Matches.neverRefused (hp : p.Upright) {m : Memo} (hm : p.Since base m) {b : Behaviour}
    (hsel : b'.selector = b.selector) (hlen : b'.arguments.length = b.arguments.length) (hb : p.ProperBehaviour b)
    (hb' : p.ProperBehaviour b') (h : p.Matches n b b') : p.NeverRefused b.type b'.type m := by
  intro k o ho
  have hverdict := (hp.keeps_behaviourVerdict k hsel hlen hb hb' m hm).1.2
  cases o with
  | none => rfl
  | some r => exact absurd h (hverdict r ho n)

/-- A type that does for another can act as it, if the behaviours of all classes are written down with
type parameters and `Self` where they may stand, and classes keep to what they say they are. The questions
before do not matter. The behaviour that takes the place of another is never refused, and it is accepted
unless there is no answer. -/
theorem behaviours_act {ss : List Source} (hclean : ∀ s ∈ ss, Diagnostic.hasErrors (s.parse none).remarks = false)
    (hp : p = .ofDocuments (ss.map (·.parse none))) (hpass : ∀ c, p.Has c → p.passesOn c = true ∧ p.saysNoSelf c = true)
    (hacyclic : ∀ c, p.Has c → ¬ TransGen p.Is c c) (hwritten : ∀ c, p.Has c → p.isWritten c = true)
    (hsuits : ∀ c, p.Has c → ∀ b ∈ p.repertoire c, p.suitsBehaviour c b = true)
    (hrefines : ∀ c, p.Has c → ∀ t ∈ p.superExpressions c, p.Refines c t) (s t : Ty) (hs : s.Closed p)
    (ht : t.Closed p) (qs : List (Question p)) (h : p.Accepts s t (after qs)) (qs' qs'' : List (Question p)) :
    ∀ b ∈ ((p.behaviours (.self s)).run (after qs')).1, ∃ b' ∈ ((p.behaviours (.self t)).run (after qs'')).1,
      b'.selector = b.selector ∧ ∀ qs : List (Question p),
        ((p.refusal b.type b'.type false).run (after qs)).1 = none ∧
        (p.Settles b.type b'.type false (after qs) → p.Accepts b.type b'.type (after qs)) ∧
        ((∀ d, p.Has d → p.keepsSides d = true) ∨ (∀ d, p.Has d → ¬ TransGen p.Mentions d d) →
          p.Accepts b.type b'.type (after qs)) := by
  have hgrown : p.Grown := hp ▸ grown_of_no_errors hclean
  have hup : p.Upright :=
    ⟨hgrown, fun c hc => (hpass c hc).1, fun c hc hcycle => hacyclic c hc (hgrown.transGen_is hc hcycle)⟩
  have horderly : p.Orderly :=
    { hup with
      plain := fun c hc => (hpass c hc).2
      declared := fun c hc => isDeclared_of_written hgrown hc hacyclic fun k hk =>
        hwritten k (has_of_path hgrown.has_of_is hc ((mem_allSuperClasses hgrown hc).mp hk))
      suits := hsuits
      refines := hrefines }
  obtain ⟨n, hdoes⟩ := h.does hup (since_after hgrown qs) hs.proper ht.proper
  have hover {t : Ty} (ht : t.Closed p) (qs : List (Question p)) :
      ∀ b ∈ ((p.behaviours (.self t)).run (after qs)).1, b.type.Over p := by
    have hself : (Ty.self t).Proper p := .self ht.proper (by cases ht; rfl)
    intro b hb
    have hb := (keeps_behaviours hgrown hself.over_ _ (since_after hgrown qs)).1 b hb
    exact .behaviour hb.receiver hb.arguments hb.result
  have hovers := hover hs qs'
  have hovert := hover ht qs''
  have hsclosed := hs
  have htclosed := ht
  obtain @⟨name, c, as, hc, -, -, -⟩ := hs
  obtain @⟨name', d, bs, hd, -, -, -⟩ := ht
  rw [(keeps_selfBehaviours hgrown hc (horderly.declared c hc) name as _ (since_after hgrown qs')).1] at hovers ⊢
  rw [(keeps_selfBehaviours hgrown hd (horderly.declared d hd) name' bs _ (since_after hgrown qs'')).1] at hovert ⊢
  intro b hb
  obtain ⟨w, hw, rfl⟩ := List.mem_map.mp hb
  obtain ⟨g, hg, m, hacts⟩ := horderly.acts hc hd hsclosed htclosed hdoes hw
  refine ⟨_, mem_map_of_mem hg, hacts.selector, fun qs => ?_⟩
  have hproper := horderly.properBehaviour hc hsclosed hw
  have hproper' := horderly.properBehaviour hd htclosed hg
  obtain ⟨k, hmatches⟩ := hacts.matches_ hproper
  have hnever := hmatches.neverRefused hup (since_after hgrown qs) hacts.selector hacts.length hproper hproper'
  exact ⟨hnever.refusal_eq_none, hnever.accepts,
    fun h => hnever.accepts (hup.settles h qs (hovers _ hb) (hovert _ (mem_map_of_mem hg)))⟩

def shelf : List Source :=
  [.ofString .module "test:shelf.loa"
    ("class Animal { friend -> Animal => self. me -> Self => self. } " ++
      "class Cat { is Animal. friend -> Cat => self. } " ++
      "class Source<out T> { next -> T. like: Animal a -> Self. } " ++
      "class Box<out T> { is Source<T>. next -> T => self next. }")]

def shelfProgram : Program := .ofDocuments (shelf.map (·.parse none))

theorem behaviours_act_shelf : ((shelfProgram.behaviours (.self (shelfProgram.typeNamedOf "Source" "Animal"))).run
      (after (p := shelfProgram) [])).1.map (·.selector) = ["next", "like:"] ∧
    ∀ qs qs' : List (Question shelfProgram),
      ∀ b ∈ ((shelfProgram.behaviours (.self (shelfProgram.typeNamedOf "Source" "Animal"))).run (after qs)).1,
      ∃ b' ∈ ((shelfProgram.behaviours (.self (shelfProgram.typeNamedOf "Box" "Cat"))).run (after qs')).1,
        b'.selector = b.selector ∧ ∀ qs : List (Question shelfProgram),
          shelfProgram.Accepts b.type b'.type (after qs) := by
  -- Classes say that they are classes that are declared before them.
  have hfacts : (∀ s ∈ shelf, Diagnostic.hasErrors (s.parse none).remarks = false) ∧
      (∀ c ∈ shelfProgram.all, (shelfProgram.passesOn c = true ∧ shelfProgram.saysNoSelf c = true) ∧
        shelfProgram.keepsSides c = true ∧ shelfProgram.isWritten c = true ∧
        (∀ k ∈ shelfProgram.superClasses c, k.id < c.id) ∧
        (∀ b ∈ shelfProgram.repertoire c, shelfProgram.suitsBehaviour c b = true) ∧
        ∀ t ∈ shelfProgram.superExpressions c, ∀ b ∈ shelfProgram.inherited t, ∀ g ∈ shelfProgram.repertoire c,
          g.selector = b.selector → repeats b g = true ∨ (shelfProgram.isClosedBehaviour b = true ∧
            shelfProgram.isClosedBehaviour g = true ∧ g.arguments.length = b.arguments.length) ∧
          shelfProgram.accepted 4 b.type g.type false = true) ∧
      shelfProgram.takes "Animal" 0 = true ∧ shelfProgram.takes "Cat" 0 = true ∧
      shelfProgram.takes "Source" 1 = true ∧ shelfProgram.takes "Box" 1 = true ∧
      shelfProgram.accepted 4 (shelfProgram.typeNamedOf "Source" "Animal") (shelfProgram.typeNamedOf "Box" "Cat")
        false ∧
      ((shelfProgram.behaviours (.self (shelfProgram.typeNamedOf "Source" "Animal"))).run
        (after (p := shelfProgram) [])).1.map (·.selector) = ["next", "like:"] := by
    decide +kernel
  obtain ⟨hclean, hclasses, hanimal, hcat, hsource, hbox, hcats, hselectors⟩ := hfacts
  have hgrown : shelfProgram.Grown := grown_of_no_errors hclean
  have hall (c : Node) (hc : shelfProgram.Has c) := hclasses c (hgrown.sown.mem_all.mpr hc)
  refine ⟨hselectors, fun qs qs' b hb => ?_⟩
  obtain ⟨b', hb', hsel, hact⟩ := behaviours_act hclean rfl (fun c hc => (hall c hc).1)
    (fun _ => hgrown.acyclic_of_before hgrown.has_of_is fun c hc => (hclasses c hc).2.2.2.1)
    (fun c hc => (hall c hc).2.2.1)
    (fun c hc => (hall c hc).2.2.2.2.1)
    (fun c hc t ht b hb g hg hsel => ((hall c hc).2.2.2.2.2 t ht b hb g hg hsel).imp_right
      fun h => ⟨h.1, [], 4, eq_of_accepted h.2⟩)
    _ _ (closed_typeNamedOf hgrown hsource hanimal) (closed_typeNamedOf hgrown hbox hcat) []
    ⟨4, eq_of_accepted hcats⟩ qs qs' b hb
  exact ⟨b', hb', hsel, fun qs => (hact qs).2.2 (.inl fun c hc => (hall c hc).2.1)⟩

end Program

end Parlance
