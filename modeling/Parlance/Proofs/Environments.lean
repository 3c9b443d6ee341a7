import Parlance.Proofs.ProgramCode
/-!
What the values of an expression are, by the names in it. The code of an expression, on a stack that holds
what the names stand for, comes to what the environment asks for.
-/
namespace Parlance.Lowering

open List

variable {first : Nat} {r slot : Slot} {v : Object} {m n : Node}

open Machine (Calls Object Healthy Runs)

/-- What names stand for while an expression is worked out. The value of a cascade goes by its node. -/
abbrev Env := Slot → Option Object

def Env.set (ρ : Env) (slot : Slot) (o : Object) : Env := fun x => if x = slot then some o else ρ x

def Env.empty : Env := fun _ => none

/-- No result of a node from position `first` on is known. -/
def Env.Before (p : Program) (ρ : Env) (first : Nat) : Prop :=
  ∀ slot, IsResult p first slot → ρ slot = none

/-- The stack has on top, slot by slot, what the environment knows; results that it does not know may be
anything. -/
structure Matches (p : Program) (ρ : Env) (f : Frame) (stack : List Object) : Prop where
  height : f.length ≤ stack.length
  slots : ∀ {slot : Slot} {i : Nat}, f.idxOf? slot = some i →
    ∃ v, stack[i]? = some v ∧ (ρ slot = some v ∨ ρ slot = none ∧ IsResult p 0 slot)

/-- The parts that the environment has everything for. -/
inductive Part.Ready (p : Program) (ρ : Env) : Part → Prop where
  | value {n : Node} (hn : p.Has n) (hs : n.shape.isExpression) (hρ : ρ.Before p n.id) : Ready p ρ (.value n)
  | argument {n : Node} (hn : p.Has n) (hs : n.shape.isExpression) (hρ : ρ.Before p n.id) : Ready p ρ (.argument n)
  | load {slot : Slot} (h : ρ slot = none → ¬ IsResult p 0 slot) : Ready p ρ (.load slot)
  | all {qs} (h : ∀ q ∈ qs, Ready p ρ q) : Ready p ρ (.all qs)
  | messages {n : Node} {ms o} (hn : ρ (.value n.id) = some o)
    (h : ∀ m ∈ ms, p.Has m ∧ m.shape.isMessage ∧ n.id < m.id ∧ ρ.Before p m.id) : Ready p ρ (.messages n ms)

variable {p : Program} {ρ : Env} {f : Frame} {st : List Object}

theorem Part.Ready.in {part : Part} (h : part.Ready p ρ) : part.In p := by
  induction h with
  | value hn hs => exact .value hn hs
  | argument hn hs => exact .argument hn hs
  | load => exact .load _
  | all _ ih => exact .all ih
  | messages hn h => exact .messages fun m hm => ⟨(h m hm).1, (h m hm).2.1, (h m hm).2.2.1⟩

theorem Env.Before.mono {first' : Nat} (h : ρ.Before p first) (hle : first ≤ first') :
    ρ.Before p first' := fun slot hs => h slot (hs.mono hle)

theorem Env.Before.set (h : ρ.Before p first) (hs : ¬ IsResult p first slot)
    (o : Object) : (ρ.set slot o).Before p first := by
  intro x hx
  have hne : x ≠ slot := fun he => hs (he ▸ hx)
  rw [Env.set, if_neg hne]
  exact h x hx

theorem Env.set_self (slot : Slot) (o : Object) : ρ.set slot o slot = some o := if_pos rfl

/-! ### Stacks and environments -/

theorem matches_nil (p : Program) (ρ : Env) (st : List Object) : Matches p ρ [] st :=
  ⟨Nat.zero_le _, nofun⟩

theorem Matches.push (h : Matches p ρ f st) {ρ' : Env} (hother : ∀ x, x ≠ slot → ρ' x = ρ x)
    (hslot : ρ' slot = some v ∨ ρ' slot = none ∧ IsResult p 0 slot) : Matches p ρ' (slot :: f) (v :: st) := by
  refine ⟨by simpa using h.height, fun {x i} hx => ?_⟩
  rw [idxOf?_cons] at hx
  by_cases he : slot = x
  · grind
  · rw [beq_eq_false_iff_ne.mpr he, if_neg (by simp)] at hx
    obtain ⟨j, hj, rfl⟩ := Option.map_eq_some_iff.mp hx
    obtain ⟨w, hw, hρ⟩ := h.slots hj
    grind

theorem Matches.pushResult (h : Matches p ρ f st) (hr : IsResult p first r)
    (hρ : ρ.Before p first) (v : Object) : Matches p ρ (r :: f) (v :: st) :=
  h.push (fun _ _ => rfl) (.inr ⟨hρ r hr, hr.mono (Nat.zero_le _)⟩)

theorem Matches.bind (h : Matches p ρ f st) (slot : Slot) (v : Object) :
    Matches p (ρ.set slot v) (slot :: f) (v :: st) :=
  h.push (fun _ hx => if_neg hx) (.inl (Env.set_self slot v))

theorem Matches.load (h : Matches p ρ f st) {slot : Slot} {i : UInt16} (hi : f.index? slot = some i)
    (hr : (Part.load slot).Ready p ρ) : ∃ v, st[i.toNat]? = some v ∧ ρ slot = some v := by
  obtain ⟨v, hv, hρ | ⟨hnone, hres⟩⟩ := h.slots (index?_eq_some.mp hi)
  · exact ⟨v, hv, hρ⟩
  · cases hr with
    | load hslot => exact absurd hres (hslot hnone)

/-! ### What names may stand for -/

theorem not_isResult_self : ¬ IsResult p first .self := by
  rintro ⟨r, -, -, -, he⟩
  cases he

theorem not_isResult_declaration {d : Node} (hd : p.Has d)
    (hs : NameKind.value.declares d.shape ∨ d.shape = .importDirective) : ¬ IsResult p first (.value d.id) := by
  have hshape : d.shape.isExpression = false ∧ d.shape.isMessage = false := by
    rcases hs with hs | hs
    · cases h : d.shape <;> rw [h] at hs <;> cases hs <;> exact ⟨rfl, rfl⟩
    · rw [hs]
      exact ⟨rfl, rfl⟩
  grind [ne_declaration_of_isResult]

theorem mem_distinct {ds acc : List Node} {d : Node}
    (h : d ∈ ds.foldl (fun acc d => if acc.any (·.id == d.id) then acc else acc ++ [d]) acc) : d ∈ acc ∨ d ∈ ds := by
  induction ds generalizing acc with
  | nil => exact .inl h
  | cons e ds ih => grind

/-- What a lazy value takes along are declarations and `self`. -/
theorem not_isResult_captured (hp : p.Grown) (hn : p.Has n) (h : slot ∈ captured p n) : ¬ IsResult p first slot := by
  rcases mem_append.mp h with h | h
  · obtain ⟨d, hd, rfl⟩ := mem_map.mp h
    have hfound := (mem_distinct (mem_mergeSort.mp hd)).resolve_left (by simp)
    obtain ⟨r, hr, hdecl⟩ := mem_filterMap.mp hfound
    have hhas := (hn.mem_within.mp (mem_filter.mp hr).1).1
    obtain ⟨hd, hs⟩ := hp.declaration hhas (Option.filter_eq_some_iff.mp hdecl).1
    exact not_isResult_declaration hd hs
  · grind [not_isResult_self]

/-! ### Working parts out -/

/-- The machine carries out one instruction, with all that it takes, and comes to the code behind it. -/
def Carries (calls : Calls) (i : Instruction) (s t : Machine.State) : Prop :=
  ∃ rest k, Runs rest [.run (i :: k) calls] s [.run k calls] t

/-- The body of a lazy value that is made in an environment, and the values that it takes along. -/
structure Suspends (p : Program) (n : Node) (ρ : Env) (body : List Instruction) (vs : List Object) :
    Prop where
  compound : isCompound n.shape
  ready : (Part.value n).Ready p ρ
  values : List.Forall₂ (fun slot v => ρ slot = some v) (captured p n).reverse vs
  code : ∃ c g k, Lowered p (.value n) (captured p n).reverse c g ∧ k.toNat = (captured p n).length ∧
    body = c ++ [.returnLazy k]

/-- How a part is worked out in an environment, from one state of the machine to another. -/
inductive Evaluates (p : Program) (calls : Calls) :
    Part → Env → Machine.State → Machine.State → Prop where
  | load {slot : Slot} {ρ : Env} {v : Object} (s) (h : ρ slot = some v) :
    Evaluates p calls (.load slot) ρ s (s.withStack (v :: s.stack))
  | nothing (ρ s) : Evaluates p calls (.all []) ρ s s
  | all {q qs ρ s t u} (h : Evaluates p calls q ρ s t) (hs : Evaluates p calls (.all qs) ρ t u) :
    Evaluates p calls (.all (q :: qs)) ρ s u
  | self {n : Node} {ρ s t} (hn : n.shape = .selfReference) (h : Evaluates p calls (.load .self) ρ s t) :
    Evaluates p calls (.value n) ρ s t
  | held {n : Node} {d ρ s t} (hn : n.shape = .reference) (hd : p.declaration? n .value = some d)
    (hs : d.shape = .parameter ∨ d.shape = .letBinding) (h : Evaluates p calls (.load (.value d.id)) ρ s t) :
    Evaluates p calls (.value n) ρ s t
  | field {n : Node} {d name ρ s t u} (hn : n.shape = .reference) (hd : p.declaration? n .value = some d)
    (hs : d.shape.isVariable) (hname : p.nameOf? d = some name) (h : Evaluates p calls (.load .self) ρ s t)
    (hc : Carries calls (callFrom name n) t u) : Evaluates p calls (.value n) ρ s u
  | fixed {n i} (ρ : Env) {s t : Machine.State} (hi : Fixed p n i) (h : Machine.perform s.calls i s = .ok () t) :
    Evaluates p calls (.value n) ρ s t
  | tuple {n : Node} {e ρ s t} (hn : n.shape = .tuple) (he : p.value? n = some e)
    (h : Evaluates p calls (.value e) ρ s t) : Evaluates p calls (.value n) ρ s t
  | send {n : Node} {e m sel ρ s t u w} (hn : n.shape = .send) (he : p.value? n = some e)
    (hm : p.part? Shape.isMessage n = some m) (hsel : p.selector? m = some sel)
    (hargs : Evaluates p calls (sent p m) ρ s t) (h : Evaluates p calls (.value e) ρ t u)
    (hc : Carries calls (callFrom sel m) u w) : Evaluates p calls (.value n) ρ s w
  | cascade {n : Node} {e ρ o v s t u} (hn : n.shape = .cascade)
    (he : p.value? n = some e) (h : Evaluates p calls (.value e) ρ s t) (ht : t.stack = o :: s.stack)
    (hs : Evaluates p calls (.messages n (cascaded p n)) (ρ.set (.value n.id) o) t u)
    (hu : u.stack = v :: t.stack) : Evaluates p calls (.value n) ρ s (u.withStack (v :: s.stack))
  | let_ {n : Node} {b e x ρ o v s t u} (hn : n.shape = .letExpression) (hb : p.part? (· == .letBinding) n = some b)
    (he : p.value? n = some e) (hx : p.value? b = some x) (h : Evaluates p calls (.value x) ρ s t)
    (ht : t.stack = o :: s.stack) (hs : Evaluates p calls (.value e) (ρ.set (.value b.id) o) t u)
    (hu : u.stack = v :: t.stack) : Evaluates p calls (.value n) ρ s (u.withStack (v :: s.stack))
  | strict {n : Node} {ρ s t} (hn : isCompound n.shape = false) (h : Evaluates p calls (.value n) ρ s t) :
    Evaluates p calls (.argument n) ρ s t
  | lazy {n ρ body vs} (s) (h : Suspends p n ρ body vs) :
    Evaluates p calls (.argument n) ρ s (s.suspend body vs s.stack s.calls)
  | message {n : Node} {m sel ρ s t u w} (hsel : p.selector? m = some sel)
    (hargs : Evaluates p calls (sent p m) ρ s t) (h : Evaluates p calls (.load (.value n.id)) ρ t u)
    (hc : Carries calls (callFrom sel m) u w) : Evaluates p calls (.messages n [m]) ρ s w
  | messages {n m ms ρ v s t u} (h : Evaluates p calls (.messages n [m]) ρ s t) (ht : t.stack = v :: s.stack)
    (hs : Evaluates p calls (.messages n ms) ρ (t.withStack s.stack) u) :
    Evaluates p calls (.messages n (m :: ms)) ρ s u

structure Point where
  part : Part
  env : Env
  state : Machine.State

/-- The parts of a part, each where the machine comes to it. -/
inductive Descends (p : Program) (calls : Calls) : Point → Point → Prop where
  | first (q : Part) (qs : List Part) (ρ s) : Descends p calls ⟨.all (q :: qs), ρ, s⟩ ⟨q, ρ, s⟩
  | next {q} (qs : List Part) {ρ s t} (h : Evaluates p calls q ρ s t) :
    Descends p calls ⟨.all (q :: qs), ρ, s⟩ ⟨.all qs, ρ, t⟩
  | self {n : Node} (ρ s) (hn : n.shape = .selfReference) : Descends p calls ⟨.value n, ρ, s⟩ ⟨.load .self, ρ, s⟩
  | held {n : Node} {d} (ρ s) (hn : n.shape = .reference)
    (hd : p.declaration? n .value = some d) (hs : d.shape = .parameter ∨ d.shape = .letBinding) :
    Descends p calls ⟨.value n, ρ, s⟩ ⟨.load (.value d.id), ρ, s⟩
  | field {n : Node} {d} (ρ s) (hn : n.shape = .reference)
    (hd : p.declaration? n .value = some d) (hs : d.shape.isVariable) :
    Descends p calls ⟨.value n, ρ, s⟩ ⟨.load .self, ρ, s⟩
  | tuple {n : Node} {e} (ρ s) (hn : n.shape = .tuple) (he : p.value? n = some e) :
    Descends p calls ⟨.value n, ρ, s⟩ ⟨.value e, ρ, s⟩
  | arguments {n : Node} {m} (ρ s) (hn : n.shape = .send)
    (hm : p.part? Shape.isMessage n = some m) : Descends p calls ⟨.value n, ρ, s⟩ ⟨sent p m, ρ, s⟩
  | receiver {n : Node} {e m ρ s t} (hn : n.shape = .send) (he : p.value? n = some e)
    (hm : p.part? Shape.isMessage n = some m) (hargs : Evaluates p calls (sent p m) ρ s t) :
    Descends p calls ⟨.value n, ρ, s⟩ ⟨.value e, ρ, t⟩
  | cascade {n : Node} {e} (ρ s) (hn : n.shape = .cascade) (he : p.value? n = some e) :
    Descends p calls ⟨.value n, ρ, s⟩ ⟨.value e, ρ, s⟩
  | messages {n : Node} {e ρ o s t} (hn : n.shape = .cascade) (he : p.value? n = some e)
    (h : Evaluates p calls (.value e) ρ s t) (ht : t.stack = o :: s.stack) :
    Descends p calls ⟨.value n, ρ, s⟩ ⟨.messages n (cascaded p n), ρ.set (.value n.id) o, t⟩
  | binding {n : Node} {b x} (ρ s) (hn : n.shape = .letExpression)
    (hb : p.part? (· == .letBinding) n = some b) (hx : p.value? b = some x) :
    Descends p calls ⟨.value n, ρ, s⟩ ⟨.value x, ρ, s⟩
  | body {n : Node} {b e x ρ o s t} (hn : n.shape = .letExpression) (hb : p.part? (· == .letBinding) n = some b)
    (he : p.value? n = some e) (hx : p.value? b = some x) (h : Evaluates p calls (.value x) ρ s t)
    (ht : t.stack = o :: s.stack) : Descends p calls ⟨.value n, ρ, s⟩ ⟨.value e, ρ.set (.value b.id) o, t⟩
  | panic {n : Node} {e} (ρ s) (hn : n.shape = .panicExpression) (he : p.value? n = some e) :
    Descends p calls ⟨.value n, ρ, s⟩ ⟨.value e, ρ, s⟩
  | strict {n : Node} (ρ s) (hn : isCompound n.shape = false) : Descends p calls ⟨.argument n, ρ, s⟩ ⟨.value n, ρ, s⟩
  | captures {n : Node} (ρ s) (hn : isCompound n.shape) : Descends p calls ⟨.argument n, ρ, s⟩ ⟨captures p n, ρ, s⟩
  | messageArguments (n m : Node) (ρ s) : Descends p calls ⟨.messages n [m], ρ, s⟩ ⟨sent p m, ρ, s⟩
  | messageReceiver (n : Node) {m : Node} {ρ s t} (hargs : Evaluates p calls (sent p m) ρ s t) :
    Descends p calls ⟨.messages n [m], ρ, s⟩ ⟨.load (.value n.id), ρ, t⟩
  | firstMessage (n m : Node) (ms : List Node) (ρ s) :
    Descends p calls ⟨.messages n (m :: ms), ρ, s⟩ ⟨.messages n [m], ρ, s⟩
  | nextMessage {n m : Node} (ms : List Node) {ρ v s t}
    (h : Evaluates p calls (.messages n [m]) ρ s t) (ht : t.stack = v :: s.stack) :
    Descends p calls ⟨.messages n (m :: ms), ρ, s⟩ ⟨.messages n ms, ρ, t.withStack s.stack⟩

inductive Comes (p : Program) (calls : Calls) : Point → Point → Prop where
  | here (x : Point) : Comes p calls x x
  | within {x y z} (h : Descends p calls x y) (hy : Comes p calls y z) : Comes p calls x z

/-- Where the machine stands within a part, by the instruction that is next: at a slot, whose value is
where the instruction finds it, or at a lazy value to be made of what has just been loaded. -/
def Reads (p : Program) (calls : Calls) (x : Point) : List Instruction → Machine.State → Prop
  | .loadLocal i :: _, t => ∃ slot ρ v, Comes p calls x ⟨.load slot, ρ, t⟩ ∧ ρ slot = some v ∧
    t.stack[i.toNat]? = some v
  | .loadLazy j body :: _, t => ∃ n ρ s vs, Comes p calls x ⟨.argument n, ρ, s⟩ ∧
    t = s.withStack (vs ++ s.stack) ∧ vs.length = j.toNat ∧ Suspends p n ρ body vs
  | _, _ => True

theorem Reads.within {calls : Calls} {x y : Point} {k : List Instruction} {t : Machine.State}
    (h : Descends p calls x y) (hy : Reads p calls y k t) : Reads p calls x k t := by
  unfold Reads at hy ⊢
  split at hy
  · obtain ⟨slot, ρ, v, hc, hv⟩ := hy
    exact ⟨slot, ρ, v, .within h hc, hv⟩
  · obtain ⟨n, ρ, s, vs, hc, hvs⟩ := hy
    exact ⟨n, ρ, s, vs, .within h hc, hvs⟩
  · exact True.intro

/-! ### Running parts -/

structure Done (p : Program) (calls : Calls) (part : Part) (ρ : Env) (f g : Frame) (s w : Machine.State) :
    Prop where
  evaluates : Evaluates p calls part ρ s w
  healthy : Healthy (contract p) w
  stack : ∃ vs, w.stack = vs ++ s.stack ∧ vs.length + f.length = g.length
  slots : Matches p ρ g w.stack

/-- Either a part has been worked out, and the code behind it is run, or the machine is within it. -/
def Follows (p : Program) (calls : Calls) (rest : List Machine.Task) (part : Part) (ρ : Env) (f g : Frame)
    (k' k : List Instruction) (s t : Machine.State) : Prop :=
  (∃ w, Done p calls part ρ f g s w ∧ Runs rest [.run k' calls] w [.run k calls] t) ∨
    k'.length < k.length ∧ Reads p calls ⟨part, ρ, s⟩ k t

variable {calls : Calls} {rest : List Machine.Task} {part : Part} {f g : Frame} {k' k : List Instruction}
  {s t w : Machine.State}

theorem Done.top (h : Done p calls part ρ f (r :: f) s w) : ∃ v, w.stack = v :: s.stack := by
  obtain ⟨vs, hst, hlen⟩ := h.stack
  obtain ⟨v, rfl⟩ := length_eq_one_iff.mp (show vs.length = 1 by rw [length_cons] at hlen; omega)
  exact ⟨v, hst⟩

/-- A part of a part, and the code `c` that comes behind it. -/
theorem Follows.bind {ρ' : Env} {f' g' : Frame} {part' : Part} {c : List Instruction}
    (h : Follows p calls rest part ρ f g c k w t) (hle : k'.length ≤ c.length)
    (hin : Descends p calls ⟨part', ρ', s⟩ ⟨part, ρ, w⟩)
    (hc : ∀ x, Done p calls part ρ f g w x → Runs rest [.run c calls] x [.run k calls] t →
      Follows p calls rest part' ρ' f' g' k' k s t) : Follows p calls rest part' ρ' f' g' k' k s t := by
  rcases h with ⟨x, hdone, hrun⟩ | ⟨hlt, hreads⟩
  · exact hc x hdone hrun
  · exact .inr ⟨by omega, hreads.within hin⟩

theorem follows_at {i : Instruction} (hk : Machine.Task.run k calls = .run (i :: k') calls)
    (hr : Reads p calls ⟨part, ρ, s⟩ (i :: k') t) : Follows p calls rest part ρ f g k' k s t := by
  injection hk with hk
  rw [← hk] at hr
  exact .inr ⟨by rw [hk, length_cons]; omega, hr⟩

theorem follows_result (hm : Matches p ρ f s.stack)
    (hr : IsResult p first r) (hρ : ρ.Before p first) (he : Evaluates p calls part ρ s w)
    (hw : Healthy (contract p) w) (hst : w.stack = v :: s.stack) (hrun : Runs rest [.run k' calls] w [.run k calls] t) :
    Follows p calls rest part ρ f (r :: f) k' k s t := by
  refine .inl ⟨w, ⟨he, hw, ⟨[v], hst, Nat.add_comm ..⟩, ?_⟩, hrun⟩
  rw [hst]
  exact hm.pushResult hr hρ v

/-- The call of a method takes what lies above the stack of the part, and leaves one value. -/
theorem follows_call (hp : p.Grown) (hd : Distinct p) {sel : String} (vs : List Object)
    (hdoes : Machine.Does (contract p) (callFrom sel m) vs.length 1) (hw : Healthy (contract p) w)
    (hst : w.stack = vs ++ s.stack) (hrun : Runs rest [.run (callFrom sel m :: k') calls] w [.run k calls] t)
    (hm : Matches p ρ f s.stack) (hr : IsResult p first r) (hρ : ρ.Before p first)
    (he : ∀ {x : Machine.State}, Carries calls (callFrom sel m) w x → Evaluates p calls part ρ s x) :
    Follows p calls rest part ρ f (r :: f) k' k s t := by
  rcases hdoes.runs (contract_kept hp hd) hrun hw hst rfl with ⟨hx, rfl⟩ | ⟨x, vs', hx, hst', hlen, hfirst, hrest⟩
  · exact follows_at hx True.intro
  · obtain ⟨v, rfl⟩ := length_eq_one_iff.mp hlen
    exact follows_result hm hr hρ (he ⟨rest, k', hfirst⟩) hx hst' hrest

theorem follows_drop {o : Object} (hw : Healthy (contract p) w) (hst : w.stack = v :: o :: s.stack)
    (hrun : Runs rest [.run (.dropLocal 1 :: k') calls] w [.run k calls] t)
    (hm : Matches p ρ f s.stack) (hr : IsResult p first r) (hρ : ρ.Before p first)
    (he : Evaluates p calls part ρ s (w.withStack (v :: s.stack))) :
    Follows p calls rest part ρ f (r :: f) k' k s t := by
  have hperform := Machine.perform_dropLocal (k := 1) w.calls (s := w) (by rw [hst]; simp)
  have hdrop : w.stack.eraseIdx (1 : UInt16).toNat = v :: s.stack := by rw [hst]; rfl
  rw [hdrop] at hperform
  rcases Machine.runs_of_perform rfl hrun hperform with ⟨hx, rfl⟩ | hrest
  · exact follows_at hx True.intro
  · exact follows_result hm hr hρ he (hw.congr rfl rfl rfl) rfl hrest

theorem evaluates_loads {slots : List Slot} (h : Evaluates p calls (.all (slots.map .load)) ρ s w) :
    ∃ vs, w = s.withStack (vs ++ s.stack) ∧
      List.Forall₂ (fun slot v => ρ slot = some v) slots.reverse vs := by
  induction slots generalizing s with
  | nil =>
    cases h
    exact ⟨[], rfl, .nil⟩
  | cons slot slots ih =>
    cases h with
    | all h hs =>
      cases h with
      | @load _ _ v _ hv =>
        obtain ⟨vs, rfl, hvs⟩ := ih hs
        refine ⟨vs ++ [v], by simp, ?_⟩
        rw [reverse_cons]
        exact rel_append hvs (.cons hv .nil)

theorem ready_value {e : Node} (h : (Part.value n).Ready p ρ) (he : p.value? n = some e) :
    (Part.value e).Ready p ρ := by
  cases h with
  | value hn hs hρ =>
    obtain ⟨hin, hlt⟩ := in_value hn he
    cases hin with
    | value hhas hexp => exact .value hhas hexp (hρ.mono (Nat.le_of_lt hlt))

theorem ready_sent (hm : p.Has m) (hρ : ρ.Before p m.id) : (sent p m).Ready p ρ := by
  refine .all fun q hq => ?_
  obtain ⟨a, ha, rfl⟩ := mem_map.mp hq
  obtain ⟨hhas, hs, hlt⟩ := hm.argument (mem_reverse.mp ha)
  exact .argument hhas hs (hρ.mono (Nat.le_of_lt hlt))

theorem ready_self (ρ : Env) : (Part.load .self).Ready p ρ := .load fun _ => not_isResult_self

theorem ready_captures (hp : p.Grown) (hn : p.Has n) (ρ : Env) : (captures p n).Ready p ρ := by
  refine .all fun q hq => ?_
  obtain ⟨slot, hslot, rfl⟩ := mem_map.mp hq
  exact .load fun _ => not_isResult_captured hp hn hslot

theorem ready_cascaded (hn : p.Has n) (hρ : ρ.Before p n.id) (o : Object) :
    (Part.messages n (cascaded p n)).Ready p (ρ.set (.value n.id) o) := by
  refine .messages (Env.set_self _ o) fun m hm => ?_
  obtain ⟨hhas, hs, hlt⟩ := mem_cascaded hn hm
  refine ⟨hhas, hs, hlt, (hρ.mono (Nat.le_of_lt hlt)).set ?_ o⟩
  rintro ⟨r, -, -, hle, he⟩
  injection he with he
  omega

theorem ready_let {b e : Node} (h : (Part.value n).Ready p ρ) (hb : p.part? (· == .letBinding) n = some b)
    (he : p.value? n = some e) (o : Object) : (Part.value e).Ready p (ρ.set (.value b.id) o) := by
  have hn : p.Has n := by cases h; assumption
  have hbs : b.shape = .letBinding := by simpa using (Forest.part?_mem hb).2
  cases ready_value h he with
  | value hhas hs hρ =>
    exact .value hhas hs (hρ.set (not_isResult_declaration (hn.part hb) (.inl (by rw [hbs]; rfl))) o)

theorem follows_slot (hr : (Part.value n).Ready p ρ) (hm : Matches p ρ f s.stack)
    (h : Follows p calls rest (.load slot) ρ f (slot :: f) k' k s t)
    (hin : Descends p calls ⟨.value n, ρ, s⟩ ⟨.load slot, ρ, s⟩)
    (he : ∀ {w : Machine.State}, Evaluates p calls (.load slot) ρ s w → Evaluates p calls (.value n) ρ s w) :
    Follows p calls rest (.value n) ρ f (.value n.id :: f) k' k s t := by
  cases hr with
  | value hn hs hρ =>
    refine h.bind (Nat.le_refl _) hin fun w hw hrun => ?_
    obtain ⟨v, hv⟩ := hw.top
    exact follows_result hm (isResult_of_has hn hs) hρ (he hw.evaluates) hw.healthy hv hrun

theorem follows_fixed {i : Instruction} (hi : Fixed p n i)
    (hr : (Part.value n).Ready p ρ) (hs : Healthy (contract p) s) (hm : Matches p ρ f s.stack)
    (hrun : Runs rest [.run (i :: k') calls] s [.run k calls] t) :
    Follows p calls rest (.value n) ρ f (.value n.id :: f) k' k s t := by
  have hreads : Reads p calls ⟨.value n, ρ, s⟩ (i :: k') t := by
    have hloads := hi.loads
    cases i with
    | loadLocal | loadLazy => cases hloads
    | _ => exact True.intro
  have hplain := Machine.isPlain_of_loads hi.loads
  cases hperform : Machine.perform s.calls i s with
  | error e u =>
    rcases hrun.start with ⟨hx, -⟩ | ⟨us, u, hstep, -⟩
    · exact follows_at hx hreads
    · rw [Machine.step_plain hplain, Machine.bind_of_error hperform] at hstep
      cases hstep
  | ok _ w =>
    rcases Machine.runs_of_perform hplain hrun hperform with ⟨hx, -⟩ | hrest
    · exact follows_at hx hreads
    · obtain ⟨v, made, rfl⟩ := (Machine.perform_load hi.loads s.calls s).ok hperform
      cases hr with
      | value hhas hexp hρ =>
        exact follows_result hm (isResult_of_has hhas hexp) hρ (.fixed ρ hi hperform)
          (hs.congr rfl rfl rfl) rfl hrest

theorem follows_send (hp : p.Grown) (hd : Distinct p) {sel : String} {before : List Instruction}
    (hmhas : p.Has m) (hms : m.shape.isMessage) (hsel : p.selector? m = some sel)
    (hargs : Lowered p (sent p m) f before g) {q : Part} (hw : Done p calls (sent p m) ρ f g s w)
    {x : Machine.State} (hx : Done p calls q ρ g (r :: g) w x)
    (hrun : Runs rest [.run (callFrom sel m :: k') calls] x [.run k calls] t) {r' : Slot}
    (hm : Matches p ρ f s.stack) (hr : IsResult p first r') (hρ : ρ.Before p first)
    (he : ∀ {y : Machine.State}, Carries calls (callFrom sel m) x y → Evaluates p calls part ρ s y) :
    Follows p calls rest part ρ f (r' :: f) k' k s t := by
  obtain ⟨hmem, har⟩ := message_selector hp hmhas hms hsel
  obtain ⟨rs, hg, hrs⟩ := grows_sent (hargs.grows (in_sent hmhas))
  obtain ⟨as, has, hlen⟩ := hw.stack
  obtain ⟨v, hv⟩ := hx.top
  have hcount : (v :: as).length = Selector.arity sel + 1 := by
    rw [hg, length_append] at hlen
    rw [length_cons, har]
    omega
  have hst : x.stack = (v :: as) ++ s.stack := by rw [hv, has, cons_append]
  have hdoes := does_call hd hmem m 0
  rw [Nat.add_zero, Nat.zero_add, ← hcount] at hdoes
  exact follows_call hp hd _ hdoes hx.healthy hst hrun hm hr hρ he

theorem Lowered.follows (hp : p.Grown) (hd : Distinct p) {c : List Instruction} (hl : Lowered p part f c g)
    (hr : part.Ready p ρ) (hs : Healthy (contract p) s) (hm : Matches p ρ f s.stack)
    (hrun : Runs rest [.run (c ++ k') calls] s [.run k calls] t) : Follows p calls rest part ρ f g k' k s t := by
  induction hl generalizing ρ s k' with
  | @load slot f i hi =>
    obtain ⟨v, hv, hρ⟩ := hm.load hi hr
    rcases Machine.runs_of_perform rfl hrun (Machine.perform_loadLocal s.calls hv) with ⟨hx, rfl⟩ | hrest
    · exact follows_at hx ⟨slot, ρ, v, .here _, hρ, hv⟩
    · refine .inl ⟨_, ⟨.load s hρ, hs.congr rfl rfl rfl, ⟨[v], rfl, Nat.add_comm ..⟩, ?_⟩, hrest⟩
      exact hm.push (fun _ _ => rfl) (.inl hρ)
  | nothing f => exact .inl ⟨s, ⟨.nothing ρ s, hs, ⟨[], rfl, Nat.zero_add _⟩, hm⟩, hrun⟩
  | @all q qs f g g' c cs h hqs ih ihs =>
    cases hr with
    | all hq =>
      rw [append_assoc] at hrun
      refine (ih (hq q mem_cons_self) hs hm hrun).bind (by simp) (.first q qs ρ s) fun w hw hrun => ?_
      have hrest := ihs (.all fun r hr => hq r (mem_cons_of_mem q hr)) hw.healthy hw.slots hrun
      rcases hrest with ⟨x, hx, hrun⟩ | ⟨hlt, hreads⟩
      · obtain ⟨vs, hvs, hlen⟩ := hw.stack
        obtain ⟨ws, hws, hlen'⟩ := hx.stack
        refine .inl ⟨x, ⟨.all hw.evaluates hx.evaluates, hx.healthy, ⟨ws ++ vs, ?_, ?_⟩, hx.slots⟩, hrun⟩
        · rw [hws, hvs, append_assoc]
        · rw [length_append]
          omega
      · exact .inr ⟨hlt, hreads.within (.next qs hw.evaluates)⟩
  | self hn h ih =>
    cases h with
    | load hi => exact follows_slot hr hm (ih (ready_self ρ) hs hm hrun) (.self ρ s hn) (.self hn)
  | @held n d f g c hn hdecl hds h ih =>
    cases h with
    | load hi =>
      have hslot : (Part.load (.value d.id)).Ready p ρ := .load fun _ => by
        cases hr with
        | value hhas hexp hρ =>
          obtain ⟨hdhas, hshape⟩ := hp.declaration hhas hdecl
          exact not_isResult_declaration hdhas hshape
      exact follows_slot hr hm (ih hslot hs hm hrun) (.held ρ s hn hdecl hds) (.held hn hdecl hds)
  | @field n d name f g c hn hdecl hds hname h ih =>
    cases h with
    | load hi =>
      rw [append_assoc] at hrun
      refine (ih (ready_self ρ) hs hm hrun).bind (by simp) (.field ρ s hn hdecl hds) fun w hw hrun => ?_
      obtain ⟨v, hv⟩ := hw.top
      cases hr with
      | value hhas hexp hρ =>
        obtain ⟨hisName, hsel, -⟩ := variable_selector hp (hp.declaration hhas hdecl).1 hds hname
        have hdoes := does_call hd hsel n 0
        rw [Selector.arity_of_isName hisName] at hdoes
        exact follows_call hp hd [v] hdoes hw.healthy hv hrun hm (isResult_of_has hhas hexp) hρ
          (.field hn hdecl hds hname hw.evaluates)
  | fixed f hi => exact follows_fixed hi hr hs hm hrun
  | tuple hn he h ih =>
    refine (ih (ready_value hr he) hs hm hrun).bind (Nat.le_refl _) (.tuple ρ s hn he) fun w hw hrun => ?_
    exact .inl ⟨w, ⟨.tuple hn he hw.evaluates, hw.healthy, hw.stack, hw.slots⟩, hrun⟩
  | send hn he hmsg hsel hargs hcode ihargs ihcode =>
    cases hr with
    | value hhas hexp hρ =>
      obtain ⟨hmhas, -, hlt, -⟩ := hhas.child (Forest.part?_mem hmsg).1
      have hready := ready_value (.value hhas hexp hρ) he
      obtain ⟨r, rfl, -⟩ := grows_value (hcode.grows hready.in)
      simp only [append_assoc] at hrun
      refine (ihargs (ready_sent hmhas (hρ.mono (Nat.le_of_lt hlt))) hs hm hrun).bind
        (by simp; omega) (.arguments ρ s hn hmsg) fun w hw hrun => ?_
      refine (ihcode hready hw.healthy hw.slots hrun).bind (by simp) (.receiver hn he hmsg hw.evaluates)
        fun x hx hrun => ?_
      exact follows_send hp hd hmhas (Forest.part?_mem hmsg).2 hsel hargs hw hx hrun hm
        (isResult_of_has hhas hexp) hρ (.send hn he hmsg hsel hw.evaluates hx.evaluates)
  | @cascade n e r r' f code sends hn he hcode hsends ihcode ihsends =>
    cases hr with
    | value hhas hexp hρ =>
      simp only [append_assoc] at hrun
      refine (ihcode (ready_value (.value hhas hexp hρ) he) hs hm hrun).bind (by simp; omega) (.cascade ρ s hn he)
        fun w hw hrun => ?_
      obtain ⟨o, ho⟩ := hw.top
      have hbind := hm.bind (.value n.id) o
      rw [← ho] at hbind
      refine (ihsends (ready_cascaded hhas hρ o) hw.healthy hbind hrun).bind (by simp) (.messages hn he hw.evaluates ho)
        fun x hx hrun => ?_
      obtain ⟨v, hv⟩ := hx.top
      exact follows_drop hx.healthy (by rw [hv, ho]) hrun hm (isResult_of_has hhas hexp) hρ
        (.cascade hn he hw.evaluates ho hx.evaluates hv)
  | @let_ n b e x r r' f before code hn hb he hv hbefore hcode ihbefore ihcode =>
    have hready {o : Object} := ready_let hr hb he o
    cases hr with
    | value hhas hexp hρ =>
      obtain ⟨hbhas, -, hlt, -⟩ := hhas.child (Forest.part?_mem hb).1
      obtain ⟨hin, hlt'⟩ := in_value hbhas hv
      simp only [append_assoc] at hrun
      have hvalue : (Part.value x).Ready p ρ := by
        cases hin with
        | value hxhas hxs => exact .value hxhas hxs (hρ.mono (by omega))
      refine (ihbefore hvalue hs hm hrun).bind (by simp; omega) (.binding ρ s hn hb hv) fun w hw hrun => ?_
      obtain ⟨o, ho⟩ := hw.top
      have hbind := hm.bind (.value b.id) o
      rw [← ho] at hbind
      refine (ihcode hready hw.healthy hbind hrun).bind (by simp) (.body hn hb he hv hw.evaluates ho)
        fun x hx hrun => ?_
      obtain ⟨v, hv'⟩ := hx.top
      exact follows_drop hx.healthy (by rw [hv', ho]) hrun hm (isResult_of_has hhas hexp) hρ
        (.let_ hn hb he hv hw.evaluates ho hx.evaluates hv')
  | panic hn he hcode ih =>
    have hready := ready_value hr he
    obtain ⟨r, rfl, -⟩ := grows_value (hcode.grows hready.in)
    rw [append_assoc] at hrun
    refine (ih hready hs hm hrun).bind (by simp) (.panic ρ s hn he) fun w hw hrun => ?_
    obtain ⟨v, hv⟩ := hw.top
    exact follows_at (Machine.runs_panic (contract_kept hp hd) hrun hw.healthy hv) True.intro
  | strict hn h ih =>
    cases hr with
    | argument hhas hexp hρ =>
      refine (ih (.value hhas hexp hρ) hs hm hrun).bind (Nat.le_refl _) (.strict ρ s hn) fun w hw hrun => ?_
      exact .inl ⟨w, ⟨.strict hn hw.evaluates, hw.healthy, hw.stack, hw.slots⟩, hrun⟩
  | @lazy n j f g g' loads body hn hj hloads hbody ihloads ihbody =>
    cases hr with
    | argument hhas hexp hρ =>
      rw [append_assoc] at hrun
      refine (ihloads (ready_captures hp hhas ρ) hs hm hrun).bind (by simp) (.captures ρ s hn) fun w hw hrun => ?_
      obtain ⟨vs, rfl, hvs⟩ := evaluates_loads hw.evaluates
      have hsuspends : Suspends p n ρ (body ++ [.returnLazy j]) vs :=
        ⟨hn, .value hhas hexp hρ, hvs, body, g', j, hbody, hj, rfl⟩
      have hlen : vs.length = j.toNat := by rw [← hvs.length_eq, length_reverse, hj]
      have hperform := Machine.perform_loadLazy (body ++ [.returnLazy j]) s.calls
        (s := s.withStack (vs ++ s.stack)) rfl hlen
      rcases Machine.runs_of_perform rfl hrun hperform with ⟨hx, rfl⟩ | hrest
      · exact follows_at hx ⟨n, ρ, s, vs, .here _, rfl, hlen, hsuspends⟩
      · have hlazy : (contract p).lazy vs.length (body ++ [.returnLazy j]) := by
          rw [hlen, hj]
          exact .mk (.value hhas hexp) hn hj hbody
        exact follows_result hm (isResult_of_has hhas hexp) hρ (.lazy s hsuspends) (hs.suspend hlazy _ _) rfl hrest
  | @message n m sel f g g' before load hsel hargs hload ihargs ihload =>
    cases hr with
    | messages ho hms =>
      obtain ⟨hmhas, hshape, -, hρ⟩ := hms _ mem_cons_self
      cases hload with
      | load hi =>
        simp only [append_assoc] at hrun
        refine (ihargs (ready_sent hmhas hρ) hs hm hrun).bind (by simp; omega) (.messageArguments _ _ ρ s)
          fun w hw hrun => ?_
        have hslot : (Part.load (.value n.id)).Ready p ρ := .load fun hnone => by
          rw [ho] at hnone
          cases hnone
        refine (ihload hslot hw.healthy hw.slots hrun).bind (by simp) (.messageReceiver _ hw.evaluates)
          fun x hx hrun => ?_
        exact follows_send hp hd hmhas hshape hsel hargs hw hx hrun hm
          ⟨_, hmhas, .inr hshape, Nat.le_refl _, rfl⟩ hρ (.message hsel hw.evaluates hx.evaluates)
  | @messages n m ms f g h first rest' hfirst hrest ihfirst ihrest =>
    cases hr with
    | messages ho hms =>
      have hone : (Part.messages n [m]).Ready p ρ :=
        .messages ho fun x hx => hms x (mem_singleton.mp hx ▸ mem_cons_self)
      have hothers : (Part.messages n ms).Ready p ρ := .messages ho fun x hx => hms x (mem_cons_of_mem m hx)
      simp only [append_assoc] at hrun
      cases hfirst.grows hone.in with
      | messages _ hmem =>
        refine (ihfirst hone hs hm hrun).bind (by simp; omega) (.firstMessage n m ms ρ s) fun w hw hrun => ?_
        obtain ⟨v, hv⟩ := hw.top
        have hperform := Machine.perform_dropLocal (k := 0) w.calls (s := w) (by rw [hv]; simp)
        have hdrop : w.stack.eraseIdx (0 : UInt16).toNat = s.stack := by rw [hv]; rfl
        rw [hdrop] at hperform
        rcases Machine.runs_of_perform rfl hrun hperform with ⟨hx, -⟩ | hrun
        · injection hx with hx
          have hlength : k'.length < (Instruction.dropLocal 0 :: (rest' ++ k')).length := by
            rw [length_cons, length_append]
            omega
          exact .inr ⟨hx ▸ hlength, hx ▸ True.intro⟩
        · refine (ihrest (s := w.withStack s.stack) hothers (hw.healthy.congr rfl rfl rfl) hm hrun).bind (Nat.le_refl _)
            (.nextMessage ms hw.evaluates hv) fun x hx hrun => ?_
          exact .inl ⟨x, ⟨.messages hw.evaluates hv hx.evaluates, hx.healthy, hx.stack, hx.slots⟩, hrun⟩

end Parlance.Lowering
