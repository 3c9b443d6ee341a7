import Parlance.Proofs.Environments
import Parlance.Proofs.TaskSteps
/-!
What code that a machine has come to run works out: an expression, the body of a member, or a lazy value, which
keeps the environment that it was made in.
-/
namespace Parlance.Lowering

open List

variable {m : Node} {c k k' : List Instruction}

open Machine (Calls Object Task Healthy Runs Reaches Running Supplied)

variable {p : Program} {f : Frame} {vs args below : List Object} {sel : String} {ρ : Env} {body : List Instruction}
  {xs : List Task} {o : Object} {calls' : Calls}

/-! ### Calls -/

/-- What a member works out that answers to a selector. -/
inductive Member (p : Program) (m : Node) (sel : String) : Part → Prop where
  | method {e} (hsel : p.methodSelector? m = some sel) (he : p.body? m = some e) : Member p m sel (.value e)
  | initializer (hsel : p.initializerSelector? m = some sel) : Member p m sel (assigned p m)

def Env.ofFrame : Frame → List Object → Env
  | slot :: f, v :: vs => (ofFrame f vs).set slot v
  | _, _ => Env.empty

/-- In a call, `self` is the receiver and the parameters are the arguments. -/
def callEnv (p : Program) (m : Node) (receiver : Object) (arguments : List Object) : Env :=
  Env.ofFrame (memberFrame p m) (receiver :: arguments)

theorem matches_ofFrame (h : vs.length = f.length) (below : List Object) :
    Matches p (Env.ofFrame f vs) f (vs ++ below) := by
  induction f generalizing vs with
  | nil => exact matches_nil p _ _
  | cons slot f ih =>
    obtain ⟨v, vs, rfl⟩ := exists_cons_of_length_eq_add_one h
    exact (ih (by simpa using h)).bind slot v

theorem matches_call (h : args.length = (p.parameters m).length) (o : Object) (below : List Object) :
    Matches p (callEnv p m o args) (memberFrame p m) (o :: args ++ below) :=
  matches_ofFrame (by simp [memberFrame, h]) below

theorem before_empty (first : Nat) : Env.empty.Before p first := fun _ _ => rfl

theorem before_ofFrame {first : Nat} (hf : ∀ slot ∈ f, ¬ IsResult p first slot)
    (vs : List Object) : (Env.ofFrame f vs).Before p first := by
  induction f generalizing vs with
  | nil => exact before_empty first
  | cons slot f ih =>
    cases vs with
    | nil => exact before_empty first
    | cons v vs =>
      exact (ih (fun x hx => hf x (mem_cons_of_mem slot hx)) vs).set (hf slot mem_cons_self) v

theorem before_call (hm : p.Has m) (o : Object) (args : List Object) (first : Nat) :
    (callEnv p m o args).Before p first := by
  refine before_ofFrame (fun slot hslot => ?_) _
  rcases mem_cons.mp hslot with rfl | hslot
  · exact not_isResult_self
  · obtain ⟨d, hd, rfl⟩ := mem_map.mp hslot
    obtain ⟨hhas, hs⟩ := hm.parameter hd
    exact not_isResult_declaration hhas (.inl (by rw [hs]; rfl))

theorem ready_member {part : Part} (h : Member p m sel part) (hm : p.Has m)
    (hρ : ∀ first, ρ.Before p first) : part.Ready p ρ := by
  have hvalue {n : Node} (hin : (Part.value n).In p) : (Part.value n).Ready p ρ := by
    cases hin with
    | value hn hs => exact .value hn hs (hρ _)
  cases h with
  | method hsel he => exact hvalue (in_body hm he)
  | initializer hsel =>
    refine .all fun q hq => ?_
    obtain ⟨a, ha, rfl⟩ := mem_map.mp hq
    obtain ⟨hhas, hs, -⟩ := hm.assignment (mem_reverse.mp ha)
    exact hvalue (.value hhas hs)

theorem Suspends.slots {n : Node} (h : Suspends p n ρ body vs) (below : List Object) :
    Matches p ρ (captured p n).reverse (vs ++ below) := by
  have hvalues := h.values
  clear h
  generalize (captured p n).reverse = f at hvalues
  induction hvalues with
  | nil => exact matches_nil p ρ below
  | cons hv _ ih => exact ih.push (fun _ _ => rfl) (.inl hv)

/-! ### Activations -/

section
variable (p : Program) (start : List Task) (init : Machine.State)

/-- Code that the machine comes to run above some tasks, and what it works out: an expression of the program
itself, what a member works out in a call, or a lazy value. -/
inductive Active : List Instruction → Calls → List Task → Point → Prop where
  | top {n c k g s} (hc : Lowered p (.value n) [] c g) (hs : Reaches start init [.run (c ++ k) .none] s) :
    Active (c ++ k) .none [] ⟨.value n, Env.empty, s⟩
  | call {m sel part c k g o args below uri line character calls calls' us s t} (hm : Member p m sel part)
    (hc : Lowered p part (memberFrame p m) c g)
    (hsend : Machine.send (hashOf sel) uri line character o calls s =
      .ok (.ahead [.run (c ++ k) calls']) t)
    (hst : s.stack = args ++ below) (hargs : args.length = (p.parameters m).length)
    (ht : Reaches start init (.run (c ++ k) calls' :: us) (t.withCalls calls')) :
    Active (c ++ k) calls' us ⟨part, callEnv p m o args, t.withCalls calls'⟩
  | lazy {code body calls us us' x n ρ vs below s} {t : Machine.State} (h : Active code calls us x)
    (hn : Comes p calls x ⟨.argument n, ρ, s⟩) (hb : Suspends p n ρ body vs)
    (hcell : t.cells[s.cells.size]? = some (.waiting body vs.reverse calls)) (hst : t.stack = vs ++ below)
    (ht : Reaches start init (.run body calls :: us') t) : Active body calls us' ⟨.value n, ρ, t⟩

def isRead : Instruction → Bool
  | .loadLocal _ | .loadLazy .. => true
  | _ => false

/-- If the next instruction reads values, then what the code works out asks for them. -/
def Sees (code : List Instruction) (calls : Calls) (us : List Task) (s : Machine.State) : Prop :=
  (∀ i ∈ code.head?, isRead i = false) ∨ ∃ body x, Active p start init body calls us x ∧
    Runs us [.run body calls] x.state [.run code calls] s ∧ Reads p calls x code s

/-- Code that is being run comes from code of a part, with nothing that reads behind it. -/
def Lives (xs : List Task) (code : List Instruction) (calls : Calls) (us : List Task) (s : Machine.State) : Prop :=
  ∃ c k t, Runs us [.run (c ++ k) calls] t (xs ++ [.run code calls]) s ∧ (∀ i ∈ k, isRead i = false) ∧
    (c = [] ∨ ∃ part ρ f g, Active p start init (c ++ k) calls us ⟨part, ρ, t⟩ ∧ Lowered p part f c g ∧
      part.Ready p ρ ∧ Matches p ρ f t.stack ∧ Healthy (contract p) t)

/-- The cell is that of a lazy value which some code made. -/
def Remembers (cell : Nat) (body : List Instruction) (captured : List Object) (calls : Calls) : Prop :=
  ∃ code us x n ρ s vs, Active p start init code calls us x ∧ Comes p calls x ⟨.argument n, ρ, s⟩ ∧
    Suspends p n ρ body vs ∧ captured = vs.reverse ∧ s.cells.size = cell

/-- What holds of all tasks and lazy values of a machine that runs a program. -/
structure Scoped (ts : List Task) (s : Machine.State) : Prop where
  reaches : Reaches start init ts s
  cells : ∀ {cell : Nat} {body : List Instruction} {captured : List Object} {calls : Calls},
    s.cells[cell]? = some (.waiting body captured calls) → Remembers p start init cell body captured calls
  tasks : ∀ (xs : List Task) {code : List Instruction} {calls : Calls} {us : List Task},
    ts = xs ++ .run code calls :: us → us ≠ [] → Lives p start init xs code calls us s

end

variable {start : List Task} {init : Machine.State} {calls : Calls} {us : List Task} {code : List Instruction}
  {s t : Machine.State}

theorem sees_of_forall (hk : ∀ i ∈ k, isRead i = false) (h : code <:+ k) :
    Sees p start init code calls us s := .inl fun i hi => hk i (h.mem (mem_of_mem_head? hi))

theorem Lives.sees (hp : p.Grown) (hd : Distinct p) (h : Lives p start init [] code calls us s)
    (hs : s.halted = false) : Sees p start init code calls us s := by
  obtain ⟨c, k, t, hrun, hk, rfl | ⟨part, ρ, f, g, ha, hl, hr, hm, ht⟩⟩ := h
  · exact sees_of_forall hk (hrun.suffix hs)
  · rcases hl.follows hp hd hr ht hm hrun with ⟨w, -, hrest⟩ | ⟨-, hreads⟩
    · exact sees_of_forall hk (hrest.suffix hs)
    · exact .inr ⟨c ++ k, _, ha, hrun, hreads⟩

/-! ### One step -/

theorem Lives.step {ys zs : List Task} {x : Task} {code' : List Instruction}
    (h : Lives p start init xs code calls us s) (hts : xs ++ [.run code calls] = x :: zs)
    (hstep : Machine.step (x :: (zs ++ us)) s = .ok (.go (ys ++ .run code' calls :: us)) t) :
    Lives p start init ys code' calls us t := by
  obtain ⟨c, k, w, hrun, hk⟩ := h
  rw [hts] at hrun
  refine ⟨c, k, w, hrun.snoc ?_, hk⟩
  rw [append_assoc]
  exact hstep

theorem Answers.lives (h : Answers p sel code) {uri : Bytes} {line character : Nat}
    (hsend : Machine.send (hashOf sel) uri line character o calls s = .ok (.ahead [.run code calls']) t)
    (hst : s.stack = args ++ below) (hargs : args.length = Selector.arity sel)
    (htop : t.stack = o :: s.stack) (ht : Healthy (contract p) (t.withCalls calls'))
    (hreach : Reaches start init (.run code calls' :: us) (t.withCalls calls')) :
    Lives p start init [] code calls' us (t.withCalls calls') := by
  have hmember {m : Node} (hm : p.Has m)
      (hsel : p.methodSelector? m = some sel ∨ p.initializerSelector? m = some sel) :
      args.length = (p.parameters m).length ∧
        Matches p (callEnv p m o args) (memberFrame p m) (t.withCalls calls').stack := by
    have hlen : args.length = (p.parameters m).length := hargs.trans (hm.member hsel).2.1.symm
    rw [Machine.State.stack_withCalls, htop, hst]
    exact ⟨hlen, matches_call hlen o below⟩
  cases h with
  | @body m e _ c g n hm hsel he hc hn =>
    obtain ⟨hlen, hslots⟩ := hmember hm (.inl hsel)
    have hwhat : Member p m sel (.value e) := .method hsel he
    exact ⟨c, [.return_ n], _, .refl _ _, by simp [isRead], .inr ⟨_, _, _, g,
      .call hwhat hc hsend hst hlen hreach, hc, ready_member hwhat hm (before_call hm o args), hslots, ht⟩⟩
  | native hsel native har => exact ⟨[], _, _, .refl _ _, by simp [isRead], .inl rfl⟩
  | unimplemented hsel name => exact ⟨[], _, _, .refl _ _, by simp [isRead], .inl rfl⟩
  | @initializer d i _ values g n hd' hs hi hsel hvalues hn =>
    obtain ⟨hlen, hslots⟩ := hmember hi (.inr hsel)
    have hwhat : Member p i sel (assigned p i) := .initializer hsel
    rw [append_assoc] at hsend hreach ⊢
    refine ⟨values, _, _, .refl _ _, ?_, .inr ⟨_, _, _, g,
      .call hwhat hvalues hsend hst hlen hreach, hvalues, ready_member hwhat hi (before_call hi o args), hslots, ht⟩⟩
    intro j hj
    rcases mem_append.mp hj with hj | hj
    · rcases mem_cons.mp hj with rfl | hj
      · rfl
      · obtain ⟨a, -, rfl⟩ := mem_map.mp hj
        rfl
    · rw [mem_singleton.mp hj]
      rfl

theorem Remembers.lives {cell : Nat} {captured : List Object} (h : Remembers p start init cell body captured calls)
    (hcell : t.cells[cell]? = some (.waiting body captured calls))
    (hst : t.stack = captured.reverse ++ below) (ht : Healthy (contract p) t)
    (hreach : Reaches start init (.run body calls :: us) t) : Lives p start init [] body calls us t := by
  obtain ⟨code, us, x, n, ρ, s, vs, ha, hcomes, hb, rfl, rfl⟩ := h
  rw [reverse_reverse] at hst
  have hactive := Active.lazy ha hcomes hb hcell hst hreach
  obtain ⟨c, g, k, hc, -, rfl⟩ := hb.code
  refine ⟨c, [.returnLazy k], t, .refl _ t, by simp [isRead], .inr ⟨_, ρ, _, g, hactive, hc, hb.ready, ?_, ht⟩⟩
  rw [hst]
  exact hb.slots below

theorem lives_of_supplied (hp : p.Grown) (hd : Distinct p) {want : Machine.Want}
    {m : Machine.Move} (h : Supplied calls want o s m t) (hs : Healthy (contract p) s)
    {K : List Object → Prop} (hw : Machine.Wanted (contract p) K want s.stack)
    (hcells : ∀ {cell : Nat} {body : List Instruction} {captured : List Object} {calls : Calls},
      s.cells[cell]? = some (.waiting body captured calls) → Remembers p start init cell body captured calls)
    {rest : List Task} {c : Calls} (hreach : Reaches start init (m.tasks ++ rest) (t.withCalls c))
    (hc : ∀ y ∈ m.tasks.head?, c = y.calls) (hm : m.tasks = xs ++ .run code calls' :: us) :
    Lives p start init xs code calls' (us ++ rest) (t.withCalls c) := by
  induction h with
  | @work want o s cell body captured context ho hcell =>
    cases xs with
    | nil =>
      obtain ⟨hx, rfl⟩ := List.cons.inj hm
      cases hx
      exact (hcells hcell).lives (t := (s.withStack _).withCalls c) hcell rfl (hs.congr rfl rfl rfl) hreach
    | cons x xs =>
      have hm := (List.cons.inj hm).2
      cases xs with
      | nil => cases hm
      | cons y ys => exact absurd (List.cons.inj hm).2 (by simp)
  | known ho hc =>
    cases xs with
    | nil => cases hm
    | cons x xs => exact absurd (List.cons.inj hm).2 (by simp)
  | operand _ hst _ ih =>
    obtain ⟨q', below, hq, hK⟩ := hw
    obtain ⟨rfl, rfl⟩ := List.cons.inj (hst.symm.trans hq)
    exact ih (hs.congr rfl rfl rfl) hK hcells hreach hc hm
  | entered h hsend =>
    cases xs with
    | nil =>
      obtain ⟨hx, rfl⟩ := List.cons.inj hm
      cases hx
      obtain rfl := hc _ rfl
      obtain ⟨args, below, hst, hargs, -⟩ := hw
      obtain ⟨sel, rfl, ha⟩ := hs.answered h
      have har : args.length = Selector.arity sel := hargs.trans (arityOf_hash hd (ha.mem_selectors hp))
      exact ha.lives hsend hst har rfl (hs.congr rfl rfl rfl) hreach
    | cons x xs => exact absurd (List.cons.inj hm).2 (by simp)
  | computed | got | put | result => exact absurd hm (by simp [Machine.Move.tasks])

section
variable (hp : p.Grown) (hd : Distinct p) (hstart : Running (contract p) .none start init)
  (hbottom : ∀ {code : List Instruction} {s : Machine.State},
    Reaches start init [.run code .none] s → Sees p start init code .none [] s)
include hp hd hstart hbottom

theorem Scoped.sees (h : Scoped p start init (.run code calls :: us) s) : Sees p start init code calls us s := by
  have hrunning := hstart.reaches (contract_kept hp hd) h.reaches
  cases us with
  | nil =>
    obtain ⟨xs, code', hts, -⟩ := hrunning
    obtain ⟨rfl, hx⟩ := append_eq_singleton_iff.mp hts.symm |>.resolve_right (by simp)
    cases hx
    exact hbottom h.reaches
  | cons u us =>
    obtain ⟨-, -, -, hs, -⟩ := hrunning
    exact (h.tasks [] rfl (by simp)).sees hp hd hs.running

variable {ts : List Task}

/-- A step keeps to what the parts of the program say. -/
theorem Scoped.step (h : Scoped p start init ts s) (hcalls : Machine.Stacked .none init.calls start)
    (hstep : Machine.step ts s = .ok (.go us) t) : Scoped p start init us t := by
  cases ts with
  | nil => cases hstep
  | cons x rest =>
    have hrunning := hstart.reaches (contract_kept hp hd) h.reaches
    have hreach := h.reaches.step hstep
    obtain ⟨-, -, -, ht, -⟩ := hstart.reaches (contract_kept hp hd) hreach
    obtain ⟨new, rfl, hx⟩ := Machine.step_inv ht.running hstep
    have hcells {cell : Nat} {body : List Instruction} {captured : List Object} {calls : Calls}
        (hc : t.cells[cell]? = some (.waiting body captured calls)) :
        Remembers p start init cell body captured calls := by
      rcases hx.waiting hc with hc | ⟨n, is, own, vs, below, rfl, rfl, hst, hn, rfl, rfl⟩
      · exact h.cells hc
      obtain rfl : own = s.calls := (h.reaches.stacked hcalls).calls_eq
      rcases h.sees hp hd hstart hbottom with hread | ⟨body', y, ha, -, m, ρ, w, vs', hcomes, rfl, hlen, hb⟩
      · cases hread _ rfl
      · obtain ⟨rfl, -⟩ := append_inj hst (by rw [hlen, hn])
        exact ⟨body', rest, y, m, ρ, w, vs', ha, hcomes, hb, rfl, rfl⟩
    refine ⟨hreach, hcells, fun xs code calls us hts hne => ?_⟩
    have hold (as : List Task) (hrest : rest = as ++ .run code calls :: us) :
        Lives p start init (new ++ as) code calls us t := by
      subst hrest
      refine (h.tasks (x :: as) rfl hne).step (cons_append ..) ?_
      rw [append_assoc, append_assoc]
      exact hstep
    rcases append_eq_append_iff.mp hts with ⟨as, rfl, hrest⟩ | ⟨bs, hnew, hus⟩
    · exact hold as hrest
    · cases bs with
      | nil => grind
      | cons b bs =>
        rw [cons_append] at hus
        obtain ⟨rfl, rfl⟩ := List.cons.inj hus
        rcases hx.run_mem hnew with ⟨code₀, rfl, rfl⟩ | ⟨want, o, stack, m, u, c, ms, hw, hst, hsup, rfl, hc, hm, rfl⟩
        · refine (h.tasks [] rfl hne).step rfl ?_
          rw [hnew] at hstep
          simpa using hstep
        · obtain ⟨K, o', stack', hst', hwanted⟩ := hrunning.wanted hw
          obtain ⟨rfl, rfl⟩ := List.cons.inj (hst.symm.trans hst')
          obtain ⟨-, -, -, hs, -⟩ := hrunning
          have hv : Healthy (contract p) ((x.settles s o).withStack stack) := by
            cases x with
            | run => exact hs.congr rfl rfl rfl
            | await cell => exact (hs.settled cell o).congr rfl rfl rfl
          obtain ⟨made, stack'', rfl⟩ := hsup.frame
          have htasks : new ++ rest = m.tasks ++ (x.behind ++ rest) := by simp [hnew, hm]
          rw [append_assoc]
          exact lives_of_supplied hp hd hsup hv hwanted hcells (htasks ▸ hreach) hc hm

/-- Whatever the machine comes to keeps to what the parts of the program say. -/
theorem scoped_of_reaches (hcode : start = [.run code .none]) (hinit : init.cells = #[])
    (hcalls : init.calls = .none) (h : Reaches start init ts s) : Scoped p start init ts s := by
  induction h with
  | refl =>
    refine ⟨.refl, fun {cell body captured calls} hc => ?_, fun xs code' calls us hts hne => ?_⟩
    · simp [hinit] at hc
    · rw [hcode] at hts
      cases xs with
      | nil => exact absurd (List.cons.inj hts).2.symm hne
      | cons x xs => simp at hts
  | step h hstep ih =>
    refine ih.step hp hd hstart hbottom ?_ hstep
    rw [hcode, hcalls]
    exact .bottom code

end

/-! ### The program itself -/

section
variable (hp : p.Grown) (hd : Distinct p) (hstart : Running (contract p) .none start init)
include hp hd hstart

theorem lowered_sees {n : Node} {g : Frame} (hin : (Part.value n).In p)
    (hc : Lowered p (.value n) [] c g) (hreach : Reaches start init [.run (c ++ k') .none] s)
    (hrun : Runs [] [.run (c ++ k') .none] s [.run k .none] t) (ht : t.halted = false) :
    Sees p start init k .none [] t ∨ ∃ w, Reaches start init [.run k' .none] w ∧
      Runs [] [.run k' .none] w [.run k .none] t := by
  obtain ⟨-, -, -, hs, -⟩ := hstart.reaches (contract_kept hp hd) hreach
  have hclimbs := hc.climbs hp hd hin s.stack.length
  rcases hclimbs.runs (contract_kept hp hd) hrun hs (append_nil _).symm (Nat.zero_add _).symm with
    ⟨k, hk, hlt⟩ | ⟨w, hw, hto, hon⟩
  · cases hk
    have hready : (Part.value n).Ready p Env.empty := by
      cases hin with
      | value hn hs => exact .value hn hs (before_empty _)
    rcases hc.follows hp hd hready hs (matches_nil p _ _) hrun with ⟨w, -, hon⟩ | ⟨-, hreads⟩
    · have hle := (hon.suffix ht).length_le
      omega
    · exact .inl (.inr ⟨_, _, .top hc hreach, hrun, hreads⟩)
  · exact .inr ⟨w, hreach.trans hto, hon⟩

omit hp hd hstart in
theorem plain_sees {i : Instruction} (hi : Machine.isPlain i)
    (hread : isRead i = false) (hreach : Reaches start init [.run (i :: k') .none] s)
    (hrun : Runs [] [.run (i :: k') .none] s [.run k .none] t) :
    Sees p start init k .none [] t ∨ ∃ w, Reaches start init [.run k' .none] w ∧
      Runs [] [.run k' .none] w [.run k .none] t := by
  rcases hrun.start with ⟨hx, -⟩ | ⟨us, u, hstep, hon⟩
  · cases hx
    exact .inl (.inl (by simp [hread]))
  · rw [append_nil] at hstep
    have hgo := hstep
    rw [Machine.step_plain hi] at hgo
    obtain ⟨_, w, -, hgo⟩ := Machine.bind_ok.mp hgo
    cases hgo
    exact .inr ⟨_, hreach.step hstep, hon⟩

variable {K : Instruction → Prop}

theorem Segment.sees (h : Segment p K c) (hreach : Reaches start init [.run (c ++ k') .none] s)
    (hrun : Runs [] [.run (c ++ k') .none] s [.run k .none] t) (ht : t.halted = false) :
    Sees p start init k .none [] t ∨ ∃ w, Reaches start init [.run k' .none] w ∧
      Runs [] [.run k' .none] w [.run k .none] t := by
  cases h with
  | @declare i hi hK =>
    refine plain_sees (Machine.isPlain_of_declares hi) ?_ hreach hrun
    cases i with
    | loadLocal | loadLazy => cases hi
    | _ => rfl
  | field id hv hs hname => exact plain_sees rfl rfl hreach hrun
  | @method sel body name h =>
    rw [cons_append, append_assoc, singleton_append] at hreach hrun
    rcases hrun.start with ⟨hx, -⟩ | ⟨us, u, hstep, hon⟩
    · cases hx
      exact .inl (.inl (by simp [isRead]))
    · rw [append_nil] at hstep
      obtain ⟨-, -, -, hs, -⟩ := hstart.reaches (contract_kept hp hd) hreach
      have hspec := Machine.define_spec (C := contract p) name ⟨sel, rfl, h⟩ (isEnd_of_ends (h.ends hp hd)) k'
        s.calls hs
      have hbegin := hstep
      rw [Machine.step, Machine.get_bind] at hbegin
      obtain ⟨code, w, hdefine, hgo⟩ := Machine.bind_ok.mp hbegin
      obtain ⟨rfl, -⟩ := hspec.ok hdefine
      cases hgo
      exact .inr ⟨_, hreach.step hstep, hon⟩
  | binding id hin hc =>
    rw [append_assoc] at hreach hrun
    rcases lowered_sees hp hd hstart hin hc hreach hrun ht with hsees | ⟨w, hto, hon⟩
    · exact .inl hsees
    · exact plain_sees rfl rfl hto hon
  | statement hin hc => exact lowered_sees hp hd hstart hin hc hreach hrun ht

theorem Stream.sees (h : Stream p K c) (hreach : Reaches start init [.run (c ++ [.halt]) .none] s)
    (hrun : Runs [] [.run (c ++ [.halt]) .none] s [.run k .none] t) (ht : t.halted = false) :
    Sees p start init k .none [] t := by
  induction h generalizing s with
  | nil => exact sees_of_forall (by simp [isRead]) (hrun.suffix ht)
  | cons h hk ih =>
    rw [append_assoc] at hreach hrun
    rcases h.sees hp hd hstart hreach hrun ht with hsees | ⟨w, hto, hon⟩
    · exact hsees
    · exact ih hto hon

end

end Parlance.Lowering
