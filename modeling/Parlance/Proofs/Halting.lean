import Parlance.Build
import Parlance.Proofs.MachineSteps
/-!
What halting does to a value that is taken afterwards: a machine that is halted works lazy values out like one
that gives up what stands behind a call.
-/
namespace Parlance.Machine

open List

variable {α β γ : Type} {calls : Calls} {want : Want} {o : Object} {s t : State} {m : Move} {rest ts : List Task}
  {i : Instruction} {early : Prop} {is : List Instruction} {x : Step α}

abbrev Result (α : Type) := EStateM.Result Fault State α

def onResult (f : α → β) (g : State → State) : Result α → Result β
  | .ok a s => .ok (f a) (g s)
  | .error e s => .error e (g s)

def outcome : Result α → Except Fault α × List Object
  | .ok a s => (.ok a, s.stack)
  | .error e s => (.error e, s.stack)

def Next.map (f : List Task → List Task) : Next → Next
  | go tasks => go (f tasks)
  | finish result => finish result

def State.flagged (b : Bool) (s : State) : State := { s with halted := b }

/-! ### Steps that do not look at the flag -/

/-- The state with another flag and with more at the bottom of its stack. -/
def State.atop (b : Bool) (base : List Object) (s : State) : State :=
  { s with halted := b, stack := s.stack ++ base }

@[simp]
theorem State.atop_nil (b : Bool) (s : State) : s.atop b [] = s.flagged b := by
  simp [atop, flagged]

/-- A step that does not look at the flag, nor at what is added at the bottom unless it would fail
without it. -/
def Blind (x : Step α) : Prop :=
  ∀ b base s, Yields x s (fun a t => x (s.atop b base) = .ok a (t.atop b base))
    fun e t => base = [] → x (s.atop b base) = .error e (t.atop b base)

namespace Blind

theorem pure (a : α) : Blind (Pure.pure a) := fun _ _ _ => rfl

theorem throw (f : Fault) : Blind (throw f : Step α) := fun _ _ _ _ => rfl

theorem panic (calls : Calls) (c : Cause) : Blind (Machine.panic calls c : Step α) := throw _

theorem flagged (hx : Blind x) (b : Bool) (s : State) : x (s.flagged b) = onResult id (State.flagged b) (x s) := by
  have h := hx b [] s
  cases hs : x s <;> simpa [Yields, hs, onResult] using h

theorem bind {f : α → Step β} (hx : Blind x) (hf : ∀ a, Blind (f a)) : Blind (x >>= f) := by
  intro b base s
  rw [yields_bind]
  refine (hx b base s).mono (fun a t h => ?_) fun e t h hbase => bind_of_error (h hbase)
  rw [bind_of_ok h]
  exact hf a b base t

theorem look {f : State → Step α} (h : ∀ b base s, Yields (f s) s
      (fun a t => f (s.atop b base) (s.atop b base) = .ok a (t.atop b base))
      fun e t => base = [] → f (s.atop b base) (s.atop b base) = .error e (t.atop b base)) : Blind (get >>= f) := h

theorem read {f : State → Step α} (hf : ∀ s, Blind (f s)) (hb : ∀ b base s, f (s.atop b base) = f s) :
    Blind (get >>= f) := by
  refine look fun b base s => ?_
  rw [hb b base s]
  exact hf s b base s

theorem modify {f : State → State} (h : ∀ b base s, f (s.atop b base) = (f s).atop b base) : Blind (modify f) :=
  fun b base s => congrArg (EStateM.Result.ok _) (h b base s)

theorem halted (hx : Blind x) {a : α} (h : x s = .ok a t) : t.halted = s.halted := by
  have hb := hx.flagged s.halted s
  have hs : s.flagged s.halted = s := rfl
  rw [hs, h] at hb
  injection hb with _ ht
  rw [ht]
  rfl

end Blind

theorem blind_push (o : Object) : Blind (push o) := Blind.modify fun _ _ _ => rfl

theorem blind_pop (calls : Calls) : Blind (pop calls) := by
  intro b base s
  obtain ⟨_, _, stack, _⟩ := s
  cases stack with
  | nil => rintro rfl; rfl
  | cons => rfl

theorem blind_make (c : Option ClassRef) (p : Payload) : Blind (make c p) := fun _ _ _ => rfl

theorem blind_box (m : Mark) (p : Payload) : Blind (box m p) := by
  refine Blind.read (fun s => ?_) fun _ _ _ => rfl
  grind [Blind.throw, blind_make]

theorem blind_boxed (p : Payload) : Blind (boxed p) := by grind [boxed, blind_box, blind_make]

theorem blind_classOf (calls : Calls) (id : UInt64) : Blind (classOf calls id) := by
  refine Blind.read (fun s => ?_) fun _ _ _ => rfl
  grind [Blind.panic, Blind.pure]

theorem blind_putClass (c : Class) : Blind (putClass c) := Blind.modify fun _ _ _ => rfl

theorem without?_append {n : Nat} {xs ys : List α} (h : without? n xs = some ys) (zs : List α) :
    without? n (xs ++ zs) = some (ys ++ zs) := by
  rw [without?_eq_some] at h ⊢
  grind

theorem blind_leaveValue (calls : Calls) (n : Nat) : Blind (leaveValue calls n) := by
  refine Blind.bind (blind_pop calls) fun o => Blind.look fun b base s => ?_
  cases hs : without? n s.stack with
  | none =>
    rintro rfl
    simp only [State.atop, append_nil, hs]
    rfl
  | some rest =>
    simp only [State.atop, without?_append hs base]
    rfl

theorem blind_enter (receiver : Object) (m : Method) (calls : Calls) : Blind (enter receiver m calls) := by
  unfold enter
  cases m.body with
  | code is => exact Blind.pure _
  | getter id name => grind [Blind.bind, blind_pop, Blind.panic, Blind.pure, blind_push]
  | setter id =>
    refine Blind.bind (blind_pop calls) fun _ => Blind.bind (blind_pop calls) fun v => ?_
    exact fun _ _ _ => rfl

theorem blind_send (hash : UInt64) (uri : Bytes) (line character : Nat) (receiver : Object)
    (calls : Calls) : Blind (send hash uri line character receiver calls) := by
  unfold send
  cases receiver.cls with
  | none => exact Blind.panic _ _
  | some c =>
    refine Blind.bind (blind_classOf calls c.id) fun k => ?_
    cases k.method? hash with
    | none => exact Blind.panic _ _
    | some m =>
      refine Blind.read (fun s => ?_) fun _ _ _ => rfl
      grind [Blind.bind, Blind.panic, blind_push, blind_enter]

theorem blind_compute (n : Native) (receiver operand : Object) (calls : Calls) :
    Blind (compute n receiver operand calls) := by
  cases n with
  | plus | minus =>
    simp only [compute]
    split
    · exact blind_boxed _
    · exact Blind.panic _ _
    · exact Blind.panic _ _
  | equal => exact blind_box _ _

theorem blind_force (o : Object) (want : Want) (calls : Calls) {forced : Step Move}
    (h : Blind forced) : Blind (force o want calls forced) := by
  unfold force
  split
  · refine Blind.read (fun s => ?_) fun _ _ _ => rfl
    grind [Blind.bind, Blind.modify, State.atop, Blind.pure, blind_push, Blind.throw]
  · exact h

theorem blind_supplyOperand (n : Native) (receiver o : Object) (calls : Calls) :
    Blind (supplyOperand n receiver o calls) :=
  blind_force o _ calls
    (Blind.bind (blind_compute n receiver o calls) fun _ => Blind.bind (blind_push _) fun _ => Blind.pure _)

theorem blind_require (want : Want) (calls : Calls) : Blind (require want calls) := by
  refine Blind.bind (blind_pop calls) fun o => ?_
  cases want with
  | panic => exact blind_force o _ calls (Blind.panic _ _)
  | call hash uri line character =>
    exact blind_force o _ calls (blind_send hash uri line character o calls)
  | receiver n =>
    exact blind_force o _ calls
      (Blind.bind (blind_pop calls) fun p => blind_supplyOperand n o p calls)
  | operand n receiver => exact blind_supplyOperand n receiver o calls
  | result => exact blind_force o _ calls (Blind.pure _)

theorem blind_settle (cell : Nat) (want : Want) (calls : Calls) : Blind (settle cell want calls) :=
  Blind.bind (blind_pop calls) fun _ => Blind.bind (Blind.modify fun _ _ _ => rfl) fun _ =>
    Blind.bind (blind_push _) fun _ => blind_require want calls

theorem blind_popMany (calls : Calls) (us : List Unit) : Blind (us.mapM fun _ => pop calls) := by
  induction us with
  | nil => exact Blind.pure []
  | cons u us ih => grind [Blind.bind, blind_pop, Blind.pure]

theorem blind_perform (calls : Calls) (i : Instruction) : Blind (perform calls i) := by
  cases i with
  | declareClass number name =>
    refine Blind.look fun b base s => ?_
    by_cases h : (s.classes.lookup number).isSome
    · rw [if_pos h]
      exact congrFun (if_pos h) _
    · rw [if_neg h]
      exact congrFun (if_neg h) _
  | declareVariable id name =>
    refine Blind.read (fun s => ?_) fun _ _ _ => rfl
    grind [Blind.panic, Blind.bind, blind_classOf, blind_putClass]
  | endMethod => exact Blind.panic _ _
  | inheritMethod source target hash =>
    refine Blind.bind (blind_classOf calls source) fun parent => ?_
    grind [Blind.bind, blind_classOf, Blind.panic, blind_putClass, Blind.pure]
  | loadObject id =>
    exact Blind.bind (blind_classOf calls id) fun _ => Blind.bind (blind_make _ _) fun _ => blind_push _
  | loadLocal index =>
    refine Blind.look fun b base s => ?_
    cases hs : s.stack[index.toNat]? with
    | none =>
      rintro rfl
      simp only [State.atop, append_nil, hs]
      rfl
    | some o =>
      have hi : index.toNat < s.stack.length := (List.getElem?_eq_some_iff.mp hs).1
      simp only [State.atop, getElem?_append_left hi, hs]
      rfl
  | dropLocal index =>
    refine Blind.look fun b base s => ?_
    cases hs : without? (index.toNat + 1) s.stack with
    | none =>
      rintro rfl
      simp only [State.atop, append_nil, hs]
      rfl
    | some rest =>
      have hi : index.toNat ≤ s.stack.length := Nat.le_of_succ_le (without?_eq_some.mp hs).1
      simp only [State.atop, without?_append hs base, take_append_of_le_length hi, ← append_assoc]
      rfl
  | storeGlobal id =>
    exact Blind.bind (blind_pop calls) fun _ => Blind.modify fun _ _ _ => rfl
  | loadGlobal id =>
    refine Blind.read (fun s => ?_) fun _ _ _ => rfl
    grind [Blind.panic, blind_push]
  | loadLazy arity body =>
    exact Blind.bind (blind_popMany calls _) fun captured => fun _ _ _ => rfl
  | markClass m id =>
    exact Blind.bind (blind_classOf calls id) fun _ => Blind.modify fun _ _ _ => rfl
  | constString | constSymbol | constCharacter | constInt | constF32 | constF64 | constFBig =>
    exact Blind.bind (blind_boxed _) fun _ => blind_push _
  | _ => exact Blind.pure _

theorem blind_define (calls : Calls) (hash : UInt64) (name : Bytes) (code : List Instruction) :
    Blind (define calls hash name code) := by
  unfold define
  split
  · exact Blind.panic _ _
  · refine Blind.read (fun s => ?_) fun _ _ _ => rfl
    grind [Blind.panic, Blind.bind, blind_classOf, blind_putClass, Blind.pure]

/-! ### Calls that do not come back -/

/-- A step that gives up what stands behind a call. -/
def stepOneWay : List Task → Step Next
  | .run (.callMethod hash uri line character :: _) _ :: rest => do
    (← require (.call hash uri line.toNat character.toNat) (← get).calls).onto rest
  | tasks => step tasks

def Want.isCall : Want → Bool
  | .call .. => true
  | _ => false

/-- The tasks without the code that calls would come back to, given whether the next task is such. -/
def cut : Bool → List Task → List Task
  | _, [] => []
  | true, .run _ _ :: ts => cut true ts
  | false, .run code calls :: ts => .run code calls :: cut true ts
  | _, .await cell want calls :: ts => .await cell want calls :: cut want.isCall ts

/-- The moves that can be made with and without the code below. -/
def Fits (given : Bool) : Move → Prop
  | .ahead ts => ∀ rest, cut false (ts ++ rest) = ts ++ cut given rest
  | .back => given
  | .finish _ => True

theorem fits_of_supplied (h : Supplied calls want o s m t) : Fits want.isCall m := by
  induction h with
  | work | known | computed | entered => exact fun rest => rfl
  | operand _ _ _ ih => exact ih
  | got | put => rfl
  | result => trivial

/-- What comes with the code below cut off. Where the run is over, other calls may be left. -/
def cutResult (b : Bool) (calls : Calls) : Result Next → Result Next
  | .ok (.go ts) s => .ok (.go (cut false ts)) (s.flagged b)
  | .ok (.finish r) s => .ok (.finish r) ((s.flagged b).withCalls calls)
  | .error e s => .error e (s.flagged b)

theorem Blind.run_cut {f g : α → Step Next} {b : Bool} (hx : Blind x)
    (h : ∀ a t, x s = .ok a t → ∃ c, g a (t.flagged b) = cutResult b c (f a t)) :
    ∃ c, (x >>= g) (s.flagged b) = cutResult b c ((x >>= f) s) := by
  have hb := hx.flagged b s
  cases hs : x s with
  | ok a t =>
    rw [hs] at hb
    rw [bind_of_ok hb, bind_of_ok hs]
    exact h a t hs
  | error e t =>
    rw [hs] at hb
    rw [bind_of_error hb, bind_of_error hs]
    exact ⟨.none, rfl⟩

theorem left_cut (b : Bool) (ts : List Task) : left b (cut true ts) = (left true ts).map (cut false) := by
  induction ts with
  | nil => rfl
  | cons t ts ih =>
    cases t with
    | run code calls => exact ih
    | await cell want calls => rfl

theorem leftCalls_cut (b : Bool) (c c' : Calls) {us : List Task} (h : left true ts = .go us) :
    leftCalls b c (cut true ts) = leftCalls true c' ts := by
  induction ts generalizing c' with
  | nil => cases h
  | cons t ts ih =>
    cases t with
    | await => rfl
    | run code calls => exact ih calls h

theorem leave_cut (h : s.halted) (b : Bool) (ts : List Task) :
    ∃ c, leave (cut true ts) (s.flagged b) = cutResult b c (leave ts s) := by
  refine ⟨leftCalls b s.calls (cut true ts), ?_⟩
  rw [leave_eq, leave_eq, h]
  show EStateM.Result.ok (left b (cut true ts)) ((s.flagged b).withCalls (leftCalls b s.calls (cut true ts))) = _
  rw [left_cut]
  cases hleft : left true ts with
  | go us =>
    rw [leftCalls_cut b s.calls s.calls hleft]
    rfl
  | finish r => rfl

theorem onto_cut (h : s.halted) (b : Bool) {given : Bool} (hm : Fits given m) (rest : List Task) :
    ∃ c, m.onto (cut given rest) (s.flagged b) = cutResult b c (m.onto rest s) := by
  cases m with
  | ahead ts =>
    refine ⟨.none, ?_⟩
    rw [onto_eq, onto_eq, Move.next, ← hm rest]
    cases ts <;> rfl
  | back =>
    cases hm
    exact leave_cut h b rest
  | finish r => exact ⟨s.calls, rfl⟩

theorem require_onto_cut (h : s.halted) (b : Bool) (want : Want) (calls : Calls) (rest : List Task) :
    ∃ c, (require want calls >>= Move.onto (cut want.isCall rest)) (s.flagged b) =
      cutResult b c ((require want calls >>= Move.onto rest) s) := by
  refine (blind_require want calls).run_cut fun m t hm => ?_
  obtain ⟨o, stack, -, hs⟩ := (yields_require want).ok hm
  exact onto_cut (((blind_require want calls).halted hm).trans h) b (fits_of_supplied hs) rest

theorem perform_cut (hi : isPlain i) (b : Bool) (is : List Instruction) (calls : Calls) (rest : List Task) :
    ∃ c, stepOneWay (cut false (.run (i :: is) calls :: rest)) (s.flagged b) =
      cutResult b c (step (.run (i :: is) calls :: rest) s) := by
  have hone : stepOneWay (cut false (.run (i :: is) calls :: rest)) = step (.run (i :: is) calls :: cut true rest) := by
    cases i with
    | callMethod => cases hi
    | _ => rfl
  rw [hone, step_plain hi, step_plain hi]
  exact (blind_perform s.calls i).run_cut fun _ _ _ => ⟨.none, rfl⟩

/-- A step of a machine that was halted is one that gives up what stands behind calls. -/
theorem stepOneWay_cut (h : s.halted) (b : Bool) (ts : List Task) :
    ∃ b' c, stepOneWay (cut false ts) (s.flagged b) = cutResult b' c (step ts s) := by
  cases ts with
  | nil => exact ⟨b, s.calls, rfl⟩
  | cons t rest =>
    cases t with
    | await cell want calls =>
      have hx := blind_settle cell want s.calls
      refine ⟨b, hx.run_cut fun m t hm => ?_⟩
      obtain ⟨v, stack, -, hs⟩ := settle_ok hm
      exact onto_cut ((hx.halted hm).trans h) b (fits_of_supplied hs) rest
    | run code calls =>
      cases code with
      | nil => exact ⟨b, leave_cut h b rest⟩
      | cons i is =>
        cases i with
        | halt => exact ⟨true, leave_cut (s := s.flagged true) rfl true rest⟩
        | panic => exact ⟨b, require_onto_cut h b .panic s.calls (.run is calls :: rest)⟩
        | callMethod hash uri line character =>
          exact ⟨b, require_onto_cut h b (.call hash uri _ _) s.calls (.run is calls :: rest)⟩
        | callNative n => exact ⟨b, require_onto_cut h b (.receiver n) s.calls (.run is calls :: rest)⟩
        | beginMethod hash name => exact ⟨b, (blind_define s.calls hash name is).run_cut fun _ _ _ => ⟨.none, rfl⟩⟩
        | return_ n | returnLazy n =>
          have hx := blind_leaveValue s.calls n.toNat
          exact ⟨b, hx.run_cut fun _ _ ht => leave_cut ((hx.halted ht).trans h) b rest⟩
        | _ => exact ⟨b, perform_cut rfl b is calls rest⟩

/-! ### Values taken from a machine that was halted -/

theorem step_halted {n : Next} (h : s.halted) (hs : step ts s = .ok n t) : t.halted := by
  obtain ⟨-, -, rfl⟩ | ⟨x, xs, rfl, hx⟩ := step_ok hs
  · exact h
  · exact hx.stays.2 h

theorem iterate_cut (fuel : Nat) (h : s.halted) (b : Bool) (ts : List Task) :
    ∃ b' c, iterate stepOneWay fuel (cut false ts) (s.flagged b) =
      onResult id (fun t => (t.flagged b').withCalls c) (iterate step fuel ts s) := by
  induction fuel generalizing s b ts with
  | zero =>
    refine ⟨b, ((cut false ts).getLast?.map Task.calls).getD s.calls, ?_⟩
    show EStateM.Result.error Fault.unfinished (unwound (cut false ts) (s.flagged b)) =
      .error Fault.unfinished (((unwound ts s).flagged b).withCalls _)
    rw [unwound_eq, unwound_eq]
    rfl
  | succ fuel ih =>
    obtain ⟨b', c, hc⟩ := stepOneWay_cut h b ts
    cases hs : step ts s with
    | error e t =>
      rw [hs] at hc
      refine ⟨b', ((cut false ts).getLast?.map Task.calls).getD t.calls, ?_⟩
      simp only [iterate, Bind.bind, EStateM.bind, unwinding, hc, hs, cutResult, unwound_eq]
      rfl
    | ok n t =>
      rw [hs] at hc
      cases n with
      | finish r =>
        refine ⟨b', c, ?_⟩
        simp only [iterate, Bind.bind, EStateM.bind, unwinding, hc, hs]
        rfl
      | go us =>
        obtain ⟨b'', d, hd⟩ := ih (step_halted h hs) b' us
        refine ⟨b'', d, ?_⟩
        simp only [iterate, Bind.bind, EStateM.bind, unwinding, hc, hs]
        exact hd

theorem outcome_report (b : Bool) (calls : Calls) {y : Step α}
    (h : y t = onResult id (fun t => (t.flagged b).withCalls calls) (x s)) :
    outcome (report y t) = outcome (report x s) := by
  unfold report
  rw [h]
  cases x s with
  | ok a u => rfl
  | error e u => cases e <;> rfl

/-- A value taken from a machine that was halted is worked out as if calls did not come back. -/
theorem outcome_evalPop_halted (s : State) : outcome (evalPop (s.flagged true)) = outcome (popBy stepOneWay s) := by
  -- The value is taken alike; what differs is how the tasks that come of it are worked off.
  obtain ⟨k, hr⟩ : ∃ k, (require .result s.calls >>= Move.onto []) s =
      cutResult s.halted k ((require .result (s.flagged true).calls >>= Move.onto []) (s.flagged true)) :=
    require_onto_cut (s := s.flagged true) rfl s.halted .result s.calls []
  cases hs : (require .result (s.flagged true).calls >>= Move.onto []) (s.flagged true) with
  | error e t =>
    rw [hs] at hr
    refine (outcome_report s.halted t.calls ?_).symm
    rw [get_bind, get_bind, bind_of_error hr, bind_of_error hs]
    rfl
  | ok n t =>
    rw [hs] at hr
    have ht : t.halted := by
      obtain ⟨m, u, hm, ho⟩ := bind_ok.mp hs
      rw [onto_eq] at ho
      cases ho
      exact (blind_require .result s.calls).halted hm
    cases n with
    | finish r =>
      refine (outcome_report s.halted k ?_).symm
      rw [get_bind, get_bind, bind_of_ok hr, bind_of_ok hs]
      rfl
    | go us =>
      obtain ⟨b, c, hc⟩ := iterate_cut patience ht s.halted us
      refine (outcome_report b c ?_).symm
      rw [get_bind, get_bind, bind_of_ok hr, bind_of_ok hs]
      exact hc

/-! ### Programs that end by halting -/

def isReturn (i : Instruction) : Bool := i.op == .return_ || i.op == .returnLazy

def returnsEarly : Bool → List Instruction → Bool
  | _, [] => false
  | true, i :: is => returnsEarly (!isEnd i) is
  | false, .beginMethod _ _ :: is => returnsEarly true is
  | false, i :: is => isReturn i || returnsEarly false is

theorem returnsEarly_dropWhile {code rest : List Instruction}
    (h : code.dropWhile (!isEnd ·) = i :: rest) : returnsEarly true code = returnsEarly false rest := by
  induction code with
  | nil => cases h
  | cons j code ih => grind [dropWhile_cons, returnsEarly]

/-- The lowest task is code, which returns early only if that was said, and nothing waits for the
result. -/
inductive Grounded (early : Prop) : List Task → Prop where
  | base (code : List Instruction) (calls : Calls) (h : returnsEarly false code → early) :
    Grounded early [.run code calls]
  | run (code : List Instruction) (calls : Calls) {ts : List Task} (h : Grounded early ts) :
    Grounded early (.run code calls :: ts)
  | await (cell : Nat) {want : Want} (calls : Calls) {ts : List Task} (hw : want ≠ .result)
    (h : Grounded early ts) : Grounded early (.await cell want calls :: ts)

def withHalt : List Task → List Task
  | [] => []
  | [.run code calls] => [.run (code ++ [.halt]) calls]
  | t :: ts => t :: withHalt ts

theorem Grounded.ne_nil (h : Grounded early ts) : ts ≠ [] := by
  cases h <;> simp

theorem withHalt_cons (t : Task) (h : ts ≠ []) : withHalt (t :: ts) = t :: withHalt ts := by
  cases ts with
  | nil => contradiction
  | cons u us => cases t <;> rfl

theorem withHalt_append (us : List Task) (h : ts ≠ []) : withHalt (us ++ ts) = us ++ withHalt ts := by
  induction us with
  | nil => rfl
  | cons u us ih => simp_all [withHalt_cons]

theorem leftCalls_withHalt (b : Bool) (c : Calls) (ts : List Task) :
    leftCalls b c (withHalt ts) = leftCalls b c ts := by
  induction ts generalizing c with
  | nil => rfl
  | cons t ts ih =>
    cases ts with
    | nil => cases t <;> rfl
    | cons u us =>
      rw [withHalt_cons t (cons_ne_nil u us)]
      cases t with
      | await => rfl
      | run code calls => rw [leftCalls, leftCalls, ih]

/-- Where a step may lead from tasks that are grounded. -/
def Lands (early : Prop) (s : State) : Next → Prop
  | .go ts => Grounded early ts
  | .finish _ => s.halted ∨ early

/-- The step does with a halt below what it does without. -/
def Parallel (early : Prop) (x y : Step Next) (s : State) : Prop :=
  y s = onResult (Next.map withHalt) id (x s) ∧ ∀ n t, x s = .ok n t → Lands early t n

theorem Parallel.congr {x y x' y' : Step Next} (h : Parallel early x y s) (hx : x' s = x s) (hy : y' s = y s) :
    Parallel early x' y' s := by
  rwa [Parallel, hx, hy]

theorem Parallel.bind {f g : α → Step Next} (h : ∀ a t, x s = .ok a t → Parallel early (f a) (g a) t) :
    Parallel early (x >>= f) (x >>= g) s := by
  cases hs : x s with
  | ok a t =>
    obtain ⟨he, hl⟩ := h a t hs
    refine ⟨?_, fun n u hn => ?_⟩
    · rw [bind_of_ok hs, bind_of_ok hs, he]
    · rw [bind_of_ok hs] at hn
      exact hl n u hn
  | error e t =>
    refine ⟨?_, fun n u hn => ?_⟩
    · rw [bind_of_error hs, bind_of_error hs]
      rfl
    · rw [bind_of_error hs] at hn
      cases hn

theorem parallel_go (h : Grounded early ts) (s : State) :
    Parallel early (Pure.pure (.go ts)) (Pure.pure (.go (withHalt ts))) s := by
  refine ⟨rfl, fun n t hn => ?_⟩
  cases hn
  exact h

theorem Grounded.left (h : Grounded early ts) (s : State) :
    Machine.left s.halted (withHalt ts) = (Machine.left s.halted ts).map withHalt ∧
      Lands early s (Machine.left s.halted ts) := by
  cases hb : s.halted with
  | false =>
    cases h with
    | base code calls hr => exact ⟨rfl, .base code calls hr⟩
    | run code calls hg =>
      rw [withHalt_cons _ hg.ne_nil]
      exact ⟨congrArg Next.go (withHalt_cons _ hg.ne_nil).symm, .run code calls hg⟩
    | await cell calls hw hg =>
      rw [withHalt_cons _ hg.ne_nil]
      exact ⟨congrArg Next.go (withHalt_cons _ hg.ne_nil).symm, .await cell calls hw hg⟩
  | true =>
    induction h with
    | base => exact ⟨rfl, .inl hb⟩
    | run code calls hg ih =>
      rw [withHalt_cons _ hg.ne_nil]
      exact ih
    | await cell calls hw hg =>
      rw [withHalt_cons _ hg.ne_nil]
      exact ⟨congrArg Next.go (withHalt_cons _ hg.ne_nil).symm, .await cell calls hw hg⟩

theorem parallel_leave (h : Grounded early ts) (s : State) : Parallel early (leave ts) (leave (withHalt ts)) s := by
  obtain ⟨hleft, hlands⟩ := h.left s
  refine ⟨by rw [leave_eq, leave_eq, hleft, leftCalls_withHalt]; rfl, fun n t hn => ?_⟩
  rw [leave_eq] at hn
  cases hn
  exact hlands

theorem grounded_of_supplied (h : Supplied calls want o s m t) (hw : want ≠ .result) (hr : Grounded early rest) :
    (∃ ts, m = .ahead ts ∧ Grounded early (ts ++ rest)) ∨ m = .back := by
  induction h with
  | work ho hc => exact .inl ⟨_, rfl, .run _ _ (.await _ _ hw hr)⟩
  | known ho hc => exact .inl ⟨_, rfl, .await _ _ hw hr⟩
  | operand _ _ _ ih => exact ih nofun
  | computed => exact .inl ⟨_, rfl, hr⟩
  | entered => exact .inl ⟨_, rfl, .run _ _ hr⟩
  | got | put => exact .inr rfl
  | result => exact absurd rfl hw

theorem parallel_onto (h : Supplied calls want o s m t) (hw : want ≠ .result) (hr : Grounded early rest) (u : State) :
    Parallel early (m.onto rest) (m.onto (withHalt rest)) u := by
  rcases grounded_of_supplied h hw hr with ⟨ts, rfl, hg⟩ | rfl
  · refine ⟨?_, fun n t hn => ?_⟩
    · rw [onto_eq, onto_eq, Move.next, Move.next, onResult, Next.map, withHalt_append ts hr.ne_nil]
      cases ts <;> rfl
    · rw [onto_eq] at hn
      cases hn
      exact hg
  · exact parallel_leave hr u

theorem parallel_require (hw : want ≠ .result) (calls : Calls) (hr : Grounded early rest) (s : State) :
    Parallel early (require want calls >>= Move.onto rest)
      (require want calls >>= Move.onto (withHalt rest)) s := by
  refine Parallel.bind fun m t hm => ?_
  obtain ⟨o, stack, -, hs⟩ := (yields_require want).ok hm
  exact parallel_onto hs hw hr t

/-- An instruction that does the same whatever stands behind it does so with a halt there. -/
theorem step_withHalt {f : List Task → Step Next}
    (hf : ∀ is rest, step (.run (i :: is) calls :: rest) s = f (.run is calls :: rest) s)
    (is : List Instruction) (rest : List Task) :
    step (withHalt (.run (i :: is) calls :: rest)) s = f (withHalt (.run is calls :: rest)) s := by
  cases rest with
  | nil => exact hf (is ++ [.halt]) []
  | cons t ts => grind [withHalt_cons]

theorem Grounded.behind (h : Grounded early (.run (i :: is) calls :: rest))
    (hi : returnsEarly false (i :: is) = returnsEarly false is) : Grounded early (.run is calls :: rest) := by
  cases h with
  | base code calls hr =>
    rw [hi] at hr
    exact .base is calls hr
  | run code calls hg => exact .run is calls hg

theorem define_append_halt (calls : Calls) (hash : UInt64) (name : Bytes) (is : List Instruction) :
    define calls hash name (is ++ [.halt]) =
      define calls hash name is >>= fun rest => Pure.pure (rest ++ [.halt]) := by
  have hd : (is ++ [Instruction.halt]).dropWhile (!isEnd ·) =
      if (is.dropWhile (!isEnd ·)).isEmpty then [Instruction.halt].dropWhile (!isEnd ·)
      else is.dropWhile (!isEnd ·) ++ [.halt] := dropWhile_append
  cases h : is.dropWhile (!isEnd ·) with
  | nil =>
    have hn : (is ++ [Instruction.halt]).dropWhile (!isEnd ·) = [] := by
      rw [hd, h]
      rfl
    simp only [define, hn, h]
    rfl
  | cons e rest =>
    have hc : (is ++ [Instruction.halt]).dropWhile (!isEnd ·) = e :: (rest ++ [.halt]) := by
      rw [hd, h]
      rfl
    have ht : (is ++ [Instruction.halt]).takeWhile (!isEnd ·) = is.takeWhile (!isEnd ·) := by
      have hl : (is.takeWhile (!isEnd ·)).length ≠ is.length := by
        have hle := congrArg List.length (takeWhile_append_dropWhile (p := (!isEnd ·)) (l := is))
        rw [h, length_append, length_cons] at hle
        omega
      rw [takeWhile_append, if_neg hl]
    simp only [define, hc, h, ht]
    rw [bind_assoc]
    congr 1
    funext s
    cases s.declaring with
    | none => rfl
    | some c => simp only [bind_assoc, pure_bind]

theorem parallel_define (hash : UInt64) (name : Bytes) (is : List Instruction)
    (calls : Calls) (h : Grounded early (.run (.beginMethod hash name :: is) calls :: rest)) (s : State) :
    Parallel early (step (.run (.beginMethod hash name :: is) calls :: rest))
      (step (withHalt (.run (.beginMethod hash name :: is) calls :: rest))) s := by
  have hstep (js : List Instruction) (us : List Task) :
      step (.run (.beginMethod hash name :: js) calls :: us) s =
        (define s.calls hash name js >>= fun code => Pure.pure (.go (.run code calls :: us))) s := rfl
  cases h with
  | base code calls hr =>
    have hhalt := hstep (is ++ [.halt]) []
    rw [define_append_halt, bind_assoc] at hhalt
    simp only [pure_bind] at hhalt
    refine Parallel.congr (Parallel.bind fun code t hd => ?_) (hstep is []) hhalt
    obtain ⟨e, he⟩ := ((yields_define hash name is).ok hd).ends
    refine parallel_go (.base code calls fun hc => hr ?_) t
    rw [returnsEarly, returnsEarly_dropWhile he, hc]
  | run code calls hg =>
    rw [withHalt_cons _ hg.ne_nil]
    refine Parallel.congr (Parallel.bind fun code t _ => ?_) (hstep is rest) (hstep is _)
    have hp := parallel_go (Grounded.run code calls hg) t
    rwa [withHalt_cons _ hg.ne_nil] at hp

theorem parallel_wanting {w : Want} (hi : ∀ is rest, step (.run (i :: is) calls :: rest) s =
      (require w s.calls >>= Move.onto (.run is calls :: rest)) s) (hw : w ≠ .result)
    (h : Grounded early (.run (i :: is) calls :: rest)) (hr : returnsEarly false (i :: is) = returnsEarly false is) :
    Parallel early (step (.run (i :: is) calls :: rest))
      (step (withHalt (.run (i :: is) calls :: rest))) s := by
  refine (parallel_require hw s.calls (h.behind hr) s).congr (hi is rest) ?_
  exact step_withHalt (f := fun ts => require w s.calls >>= Move.onto ts) hi is rest

theorem parallel_perform (hi : isPlain i) (hr : returnsEarly false (i :: is) = returnsEarly false is)
    (h : Grounded early (.run (i :: is) calls :: rest)) (s : State) :
    Parallel early (step (.run (i :: is) calls :: rest)) (step (withHalt (.run (i :: is) calls :: rest))) s := by
  have hstep (is : List Instruction) (rest : List Task) := step_plain hi is calls rest s
  refine Parallel.congr (Parallel.bind fun _ t _ => parallel_go (h.behind hr) t) (hstep is rest) ?_
  exact step_withHalt (f := fun ts => perform s.calls i >>= fun _ => Pure.pure (.go ts)) hstep is rest

theorem parallel_leaving {x : Step Unit}
    (hi : ∀ is rest, step (.run (i :: is) calls :: rest) s = (x >>= fun _ => leave rest) s)
    (h : Grounded early (.run (i :: is) calls :: rest))
    (hl : ∀ t, x s = .ok () t → t.halted ∨ returnsEarly false (i :: is)) :
    Parallel early (step (.run (i :: is) calls :: rest))
      (step (withHalt (.run (i :: is) calls :: rest))) s := by
  cases h with
  | base code calls hr =>
    refine Parallel.congr (Parallel.bind fun _ t ht => ⟨rfl, fun n u hn => ?_⟩) (hi is []) (hi _ [])
    cases hn
    exact (hl t ht).imp id hr
  | run code calls hg =>
    rw [withHalt_cons _ hg.ne_nil]
    exact Parallel.congr (Parallel.bind fun _ t _ => parallel_leave hg t) (hi is rest) (hi is _)

/-- Only where the lowest code comes to its end does the halt behind it make a difference. -/
theorem parallel_step (h : Grounded early ts) (hne : ∀ calls, ts ≠ [.run [] calls]) (s : State) :
    Parallel early (step ts) (step (withHalt ts)) s := by
  cases ts with
  | nil => exact absurd rfl h.ne_nil
  | cons t rest =>
    cases t with
    | await cell want calls =>
      cases h with
      | await cell calls hw hg =>
        rw [withHalt_cons _ hg.ne_nil]
        refine Parallel.congr (Parallel.bind (x := settle cell want s.calls) fun m t hm => ?_) rfl rfl
        grind [settle_ok, parallel_onto]
    | run code calls =>
      cases code with
      | nil =>
        cases h with
        | base code calls hr => exact absurd rfl (hne calls)
        | run code calls hg =>
          rw [withHalt_cons _ hg.ne_nil]
          exact parallel_leave hg s
      | cons i is =>
        cases i with
        | halt =>
          refine parallel_leaving (x := modify (State.flagged true)) (fun _ _ => rfl) h fun t ht => ?_
          cases ht
          exact .inl rfl
        | panic => exact parallel_wanting (w := .panic) (fun _ _ => rfl) nofun h rfl
        | callMethod hash uri line character =>
          exact parallel_wanting (w := .call hash uri _ _) (fun _ _ => rfl) nofun h rfl
        | callNative n => exact parallel_wanting (w := .receiver n) (fun _ _ => rfl) nofun h rfl
        | beginMethod hash name => exact parallel_define hash name is calls h s
        | return_ n | returnLazy n => exact parallel_leaving (fun _ _ => rfl) h fun _ _ => .inr rfl
        | _ => exact parallel_perform rfl rfl h s

theorem iterate_withHalt (fuel : Nat)
    {r : Option Object} (h : Grounded early ts) (hs : iterate step fuel ts s = .ok r t) :
    ∃ b, iterate step fuel (withHalt ts) s = .ok r (t.flagged b) ∧
      (b ∨ b = t.halted ∧ early) := by
  induction fuel generalizing ts s with
  | zero => cases hs
  | succ fuel ih =>
    by_cases hne : ∃ calls, ts = [.run [] calls]
    · obtain ⟨calls, rfl⟩ := hne
      cases hs
      exact ⟨true, rfl, .inl rfl⟩
    · obtain ⟨hp, hl⟩ := parallel_step h (fun calls hc => hne ⟨calls, hc⟩) s
      obtain ⟨n, u, hn, hr⟩ := bind_ok.mp hs
      rw [unwinding_ok] at hn
      rw [hn] at hp
      have hp : unwinding (withHalt ts) (step (withHalt ts)) s = .ok (n.map withHalt) u := unwinding_ok.mpr hp
      have hland := hl n u hn
      cases n with
      | go us =>
        obtain ⟨b, hb, he⟩ := ih hland hr
        exact ⟨b, (bind_of_ok hp).trans hb, he⟩
      | finish q =>
        cases hr
        refine ⟨t.halted, (bind_of_ok hp).trans rfl, ?_⟩
        exact hland.imp id fun he => ⟨rfl, he⟩

theorem report_ok {a : α} : report x s = .ok a t ↔ x s = .ok a t := by grind [report]

/-- A program and the same program with a halt at its end come to the same state but for the flag, which
the halt sets unless a return leaves the program before. -/
theorem eval_append_halt {p : List Instruction} (h : eval p s = .ok () t) :
    ∃ b, eval (p ++ [.halt]) s = .ok () (t.flagged b) ∧
      (b ∨ b = t.halted ∧ returnsEarly false p) := by
  obtain ⟨x, u, hu, h⟩ := bind_ok.mp h
  cases hu
  rw [get_bind] at h
  obtain ⟨r, v, hr, h⟩ := bind_ok.mp h
  cases h
  have hg : Grounded (returnsEarly false p) [.run p s.calls] := .base p s.calls id
  obtain ⟨b, hb, he⟩ := iterate_withHalt patience hg (report_ok.mp hr)
  refine ⟨b, ?_, he⟩
  have hr' := report_ok.mpr hb
  exact (bind_of_ok rfl).trans ((bind_of_ok hr').trans rfl)

theorem evaluate_eq_evalPop {p : List Instruction} (h : eval p s = .ok () t)
    (hs : t.stack ≠ []) : Ran.evaluate p s = evalPop t := by
  have he : (if t.stack.isEmpty then Pure.pure none else evalPop : Step (Option Object)) t = evalPop t := by
    rw [if_neg (by simpa using hs)]
  exact (bind_of_ok h).trans he

/-- A halt at the end of a program changes what is reported of the value it leaves, and what is left below
that value, exactly if calls that do not come back would. -/
theorem evaluate_append_halt {p : List Instruction} {s t : State} (h : eval p s = .ok () t) (hs : t.stack ≠ []) :
    ∃ b, eval (p ++ [.halt]) s = .ok () (t.flagged b) ∧
      (returnsEarly false p = false → b = true) ∧
      (outcome (Ran.evaluate (p ++ [.halt]) s) = outcome (Ran.evaluate p s) ↔
        b = t.halted ∨ outcome (popBy stepOneWay t) = outcome (evalPop t)) := by
  obtain ⟨b, hb, he⟩ := eval_append_halt h
  refine ⟨b, hb, fun hr => ?_, ?_⟩
  · rcases he with he | ⟨-, he⟩
    · exact he
    · rw [hr] at he
      cases he
  rw [evaluate_eq_evalPop h hs, evaluate_eq_evalPop hb hs]
  rcases he with rfl | ⟨rfl, -⟩
  · rw [outcome_evalPop_halted]
    constructor
    · exact .inr
    · rintro (ht | ho)
      · rw [← outcome_evalPop_halted, ht]
        rfl
      · exact ho
  · exact ⟨fun _ => .inl rfl, fun _ => rfl⟩

def turncoat : List Instruction :=
  [.declareClass 1 [65], .beginMethod 7 [109], .return_ 0, .endMethod, .declareClass 2 [66],
    .loadLazy 0 [.loadObject 1, .callMethod 7 [] 1 1, .dropLocal 0, .loadObject 2]]

def turncoatState : State :=
  { State.fresh 10 with
    classes := [(1, ⟨⟨1, [65]⟩, [(7, ⟨[109], .code [.return_ 0]⟩)]⟩), (2, ⟨⟨2, [66]⟩, []⟩)]
    stack := [.mk 0 none (.lazy 0) []]
    cells := #[.waiting [.loadObject 1, .callMethod 7 [] 1 1, .dropLocal 0, .loadObject 2] [] .none]
    declaring := some 2
    made := 1
    events := [.classMade [66], .classMade [65]] }

/-- Whether it halts at its end decides which class its value is of. -/
theorem evaluate_turncoat_append_halt : eval turncoat (.fresh 10) = .ok () turncoatState ∧
    outcome (Ran.evaluate (turncoat ++ [.halt]) (.fresh 10)) ≠
      outcome (Ran.evaluate turncoat (.fresh 10)) := by
  have h : eval turncoat (.fresh 10) = .ok () turncoatState := rfl
  refine ⟨h, fun he => ?_⟩
  obtain ⟨b, -, hb, hi⟩ := evaluate_append_halt h (by simp [turncoatState])
  rcases hi.mp he with hf | ho
  · rw [hb rfl] at hf
    cases hf
  · have hone : (outcome (popBy stepOneWay turncoatState)).1.toOption.map (·.map Object.cls) =
        some (some (some ⟨1, [65]⟩)) := by decide +kernel
    have htwo : (outcome (evalPop turncoatState)).1.toOption.map (·.map Object.cls) =
        some (some (some ⟨2, [66]⟩)) := by decide +kernel
    rw [ho, htwo] at hone
    cases hone

end Parlance.Machine
