import Parlance.Machine
/-!
What the machine does. One statement for each function says where it leads and how it fails.
-/
namespace Parlance.Machine

open List

variable {e : Fault} {n : Nat} {want : Want} {i : Instruction} {ts : List Task} {k : UInt16} {below : List Object}

def Task.behind : Task → List Task
  | .run code calls => [.run code.tail calls]
  | .await .. => []

def Task.want? : Task → Option Want
  | .await _ want _ => some want
  | .run (.panic :: _) _ => some .panic
  | .run (.callMethod hash uri line character :: _) _ =>
    some (.call hash uri line.toNat character.toNat)
  | .run (.callNative n :: _) _ => some (.receiver n)
  | .run _ _ => none

variable {α β : Type} {s t : State} {calls : Calls} {o : Object} {stack : List Object} {f : α → Step β} {x : Step α}
  {a : α} {E : Fault → State → Prop} {xs : List α} {vs : List Object} {cell : Nat} {m : Move}

theorem bind_ok {b : β} : (x >>= f) s = .ok b t ↔ ∃ a u, x s = .ok a u ∧ f a u = .ok b t := by
  simp only [Bind.bind, EStateM.bind]
  cases h : x s <;> simp [and_assoc]

theorem bind_error : (x >>= f) s = .error e t ↔ x s = .error e t ∨ ∃ a u, x s = .ok a u ∧ f a u = .error e t := by
  simp only [Bind.bind, EStateM.bind]
  cases h : x s <;> simp [and_assoc]

theorem bind_of_ok (h : x s = .ok a t) : (x >>= f) s = f a t := by
  simp only [Bind.bind, EStateM.bind, h]

theorem bind_of_error (h : x s = .error e t) : (x >>= f) s = .error e t := by
  simp only [Bind.bind, EStateM.bind, h]

theorem get_bind (f : State → Step α) : (get >>= f) s = f s s := rfl

def Cause.isShortage : Cause → Bool
  | .emptyStack | .missingLocal | .shortStack _ _ => true
  | _ => false

def Fault.isShortage : Fault → Bool
  | .panic p => p.cause.isShortage
  | _ => false

/-- What a step comes to from a state: `Q` if it goes well, `E` if it fails. -/
def Yields (x : Step α) (s : State) (Q : α → State → Prop) (E : Fault → State → Prop) : Prop :=
  match x s with
  | .ok a t => Q a t
  | .error e t => E e t

section

variable {x : Step α} {Q Q' : α → State → Prop} {E : Fault → State → Prop}

theorem Yields.ok (h : Yields x s Q E) (hx : x s = .ok a t) : Q a t := by
  simpa only [Yields, hx] using h

theorem Yields.error (h : Yields x s Q E) (hx : x s = .error e t) : E e t := by
  simpa only [Yields, hx] using h

@[simp] theorem yields_pure (a : α) : Yields (pure a) s Q E ↔ Q a s := .rfl

@[simp] theorem yields_panic (c : Cause) : Yields (panic calls c) s Q E ↔ E (.panic ⟨c, calls.frames.reverse⟩) s := .rfl

@[simp] theorem yields_bind (x : Step β) (f : β → Step α) :
    Yields (x >>= f) s Q E ↔ Yields x s (fun a t => Yields (f a) t Q E) E := by
  simp only [Yields, Bind.bind, EStateM.bind]
  cases x s <;> rfl

@[simp] theorem yields_get {Q : State → State → Prop} : Yields get s Q E ↔ Q s s := .rfl

variable {Q : Unit → State → Prop}

@[simp] theorem yields_set : Yields (set t) s Q E ↔ Q () t := .rfl

@[simp] theorem yields_modify (f : State → State) : Yields (modify f) s Q E ↔ Q () (f s) := .rfl

@[simp] theorem yields_push : Yields (push o) s Q E ↔ Q () { s with stack := o :: s.stack } := .rfl

@[simp] theorem yields_putClass (c : Class) :
    Yields (putClass c) s Q E ↔ Q () { s with classes := replaceClass c s.classes } := .rfl

theorem Yields.mono {E' : Fault → State → Prop} {Q : α → State → Prop} (h : Yields x s Q E)
    (hQ : ∀ a t, Q a t → Q' a t) (hE : ∀ e t, E e t → E' e t) : Yields x s Q' E' := by
  grind [Yields]

end

/-! ### The stack -/

def State.withStack (s : State) (stack : List Object) : State := { s with stack }

@[simp] theorem State.stack_withStack (s : State) (stack : List Object) : (s.withStack stack).stack = stack := rfl

@[simp] theorem State.withStack_withStack (s : State) (st st' : List Object) :
    (s.withStack st).withStack st' = s.withStack st' := rfl

def State.withCalls (s : State) (calls : Calls) : State := { s with calls }

@[simp] theorem State.stack_withCalls (s : State) (calls : Calls) : (s.withCalls calls).stack = s.stack := rfl

theorem pop_cons (calls : Calls) (h : s.stack = o :: stack) : pop calls s = .ok o (s.withStack stack) := by
  obtain ⟨_, _, _, _⟩ := s
  cases h
  rfl

theorem pop_nil (calls : Calls) (h : s.stack = []) :
    pop calls s = .error (.panic ⟨.emptyStack, calls.frames.reverse⟩) s := by
  obtain ⟨_, _, _, _⟩ := s
  cases h
  rfl

def emptied (calls : Calls) : Fault := .panic ⟨.emptyStack, calls.frames.reverse⟩

@[simp] theorem yields_pop {Q : Object → State → Prop} : Yields (pop calls) s Q E ↔
    (∀ o stack, s.stack = o :: stack → Q o (s.withStack stack)) ∧ (s.stack = [] → E (emptied calls) s) := by
  cases hs : s.stack with
  | nil => simp [Yields, pop_nil calls hs, emptied]
  | cons o stack => simp [Yields, pop_cons calls hs]

theorem without?_eq_some {ys : List α} : without? n xs = some ys ↔ n ≤ xs.length ∧ ys = xs.drop n := by
  induction n generalizing xs with
  | zero => simp [without?, eq_comm]
  | succ n ih =>
    cases xs with
    | nil => simp [without?]
    | cons x xs => simp [without?, ih]

theorem without?_eq_none : without? n xs = none ↔ xs.length < n := by
  simp [Option.eq_none_iff_forall_ne_some, without?_eq_some]

theorem yields_popMany (n : Nat) : Yields ((List.replicate n ()).mapM fun _ => pop calls) s
    (fun vs t => ∃ below, s.stack = vs ++ below ∧ vs.length = n ∧ t = s.withStack below)
    (fun e t => s.stack.length < n ∧ e = emptied calls ∧ t = s.withStack []) := by
  induction n generalizing s with
  | zero => exact ⟨s.stack, rfl, rfl, rfl⟩
  | succ n ih =>
    rw [replicate_succ, mapM_cons, yields_bind, yields_pop]
    refine ⟨fun o stack hst => ?_, fun hst => ?_⟩
    · rw [yields_bind]
      refine ih.mono ?_ ?_
      · simp_all
      · simp_all
    · have hself : s = s.withStack [] := by rw [← hst]; rfl
      exact ⟨by rw [hst]; exact Nat.succ_pos n, rfl, hself⟩

/-! ### Values -/

theorem mem_of_lookup [BEq β] [LawfulBEq β] {k : β} {l : List (β × α)} (h : l.lookup k = some a) : (k, a) ∈ l := by
  obtain ⟨before, after, rfl, -⟩ := lookup_eq_some_iff.mp h
  simp

theorem mem_replaceClass {c : Class} {e : UInt64 × Class} {l : List (UInt64 × Class)}
    (h : e ∈ replaceClass c l) : e = (c.ref.id, c) ∨ e ∈ l := by
  induction l with
  | nil =>
    rw [replaceClass, mem_singleton] at h
    exact .inl h
  | cons d l ih =>
    rw [replaceClass] at h
    grind

inductive Boxed (s : State) (p : Payload) : Object → Prop where
  | plain : Boxed s p (.mk s.made none p [])
  | marked {m c} (h : s.marks.lookup m = some c) : Boxed s p (.mk s.made (some c) p [])

theorem yields_box (m : Mark) (p : Payload) : Yields (box m p) s
    (fun o t => Boxed s p o ∧ t = { s with made := s.made + 1 }) (fun e t => e = .unmarked m ∧ t = s) := by
  simp only [box, yields_bind, yields_get]
  cases hm : s.marks.lookup m with
  | none => exact ⟨rfl, rfl⟩
  | some c => exact ⟨.marked hm, rfl⟩

theorem box_marked {m : Mark} {c : ClassRef} (hc : s.marks.lookup m = some c) (p : Payload) :
    box m p s = .ok (.mk s.made (some c) p []) { s with made := s.made + 1 } := by
  rw [box, get_bind, hc]
  rfl

theorem yields_boxed (p : Payload) : Yields (boxed p) s
    (fun o t => Boxed s p o ∧ t = { s with made := s.made + 1 }) (fun e t => ∃ m, e = .unmarked m ∧ t = s) := by
  unfold boxed
  cases p.kind with
  | marked m => exact (yields_box m p).mono (fun _ _ h => h) fun _ _ h => ⟨m, h⟩
  | plain | lazy => exact ⟨.plain, rfl⟩

def Computes (a b p : Payload) : Native → Prop
  | .plus => operate .plus a b = .ok p
  | .minus => operate .minus a b = .ok p
  | .equal => p = .plain

inductive Unworkable (calls : Calls) : Fault → Prop where
  | unmarked (m : Mark) : Unworkable calls (.unmarked m)
  | notANumber : Unworkable calls (.panic ⟨.notANumber, calls.frames.reverse⟩)
  | inexact (text : String) : Unworkable calls (.panic ⟨.inexact text, calls.frames.reverse⟩)

theorem yields_compute (n : Native) (a b : Object) : Yields (compute n a b calls) s
    (fun o t => (∃ p, Computes a.payload b.payload p n ∧ Boxed s p o) ∧ t = { s with made := s.made + 1 })
    (fun e t => Unworkable calls e ∧ t = s) := by
  cases n with
  | plus | minus =>
    simp only [compute]
    split
    · rename_i p hp
      refine (yields_boxed p).mono (fun o t h => ⟨⟨p, hp, h.1⟩, h.2⟩) ?_
      rintro e t ⟨m, rfl, rfl⟩
      exact ⟨.unmarked m, rfl⟩
    · exact ⟨.notANumber, rfl⟩
    · exact ⟨.inexact _, rfl⟩
  | equal =>
    refine (yields_box _ .plain).mono (fun o t h => ⟨⟨.plain, rfl, h.1⟩, h.2⟩) ?_
    rintro e t ⟨rfl, rfl⟩
    exact ⟨.unmarked _, rfl⟩

@[simp] theorem yields_classOf {id : UInt64} {Q : Class → State → Prop} :
    Yields (classOf calls id) s Q E ↔ (∀ c, s.classes.lookup id = some c → Q c s) ∧
      (s.classes.lookup id = none → E (.panic ⟨.noClass id, calls.frames.reverse⟩) s) := by
  simp only [classOf, yields_bind, yields_get]
  cases s.classes.lookup id <;> simp

/-! ### Control -/

def cell? (o : Object) : Option Nat :=
  match o.payload with
  | .lazy c => some c
  | _ => none

theorem cell?_eq_some {c : Nat} : cell? o = some c ↔ o.payload = .lazy c := by
  unfold cell?
  cases o.payload <;> simp

theorem force_plain (ho : cell? o = none) (want : Want) (calls : Calls) (forced : Step Move) :
    force o want calls forced = forced := by
  unfold force
  split
  · rename_i hc
    rw [cell?_eq_some.mpr hc] at ho
    cases ho
  · rfl

theorem step_native {n : Native} {a b : Object} (hs : s.stack = a :: b :: below)
    (ha : cell? a = none) (h : supply (.operand n a) b s.calls (s.withStack below) = .ok (.ahead []) t)
    (is : List Instruction) (ts : List Task) :
    step (.run (.callNative n :: is) calls :: ts) s = .ok (.go (.run is calls :: ts)) t := by
  refine bind_of_ok (f := Move.onto (.run is calls :: ts)) (Eq.trans ?_ h)
  rw [require, bind_of_ok (pop_cons s.calls hs), supply, force_plain ha, bind_of_ok (pop_cons s.calls rfl)]
  rfl

/-- A call of a method: the class of the receiver has it, and there is room for one more frame. -/
structure Answered (calls : Calls) (s : State) (hash : UInt64) (o : Object) (c : ClassRef) (m : Method) : Prop where
  cls : o.cls = some c
  method : ∃ k, s.classes.lookup c.id = some k ∧ k.method? hash = some m
  room : calls.depth < s.maxDepth

/-- What handing a value on can come to. -/
inductive Supplied (calls : Calls) : Want → Object → State → Move → State → Prop where
  | work {want : Want} {o : Object} {s : State} {cell body captured context} (ho : cell? o = some cell)
      (hc : s.cells[cell]? = some (.waiting body captured context)) :
    Supplied calls want o s (.ahead [.run body context, .await cell want calls])
      (s.withStack (captured.reverse ++ s.stack))
  | known {want o v} {s : State} {cell} (ho : cell? o = some cell) (hc : s.cells[cell]? = some (.done v)) :
    Supplied calls want o s (.ahead [.await cell want calls]) (s.withStack (v :: s.stack))
  | operand {n o p} {s : State} {t stack m} (ho : cell? o = none) (hs : s.stack = p :: stack)
      (h : Supplied calls (.operand n o) p (s.withStack stack) m t) :
    Supplied calls (.receiver n) o s m t
  | computed {n : Native} {receiver o : Object} {v s p} (hp : Computes receiver.payload o.payload p n)
      (hv : Boxed s p v) :
    Supplied calls (.operand n receiver) o s (.ahead []) { s with made := s.made + 1, stack := v :: s.stack }
  | entered {hash uri name line character o s c is} (h : Answered calls s hash o c ⟨name, .code is⟩)
      (hsend : send hash uri line character o calls s =
        .ok (.ahead [.run is (calls.push ⟨c.name, name, uri, line, character⟩)]) (s.withStack (o :: s.stack))) :
    Supplied calls (.call hash uri line character) o s
      (.ahead [.run is (calls.push ⟨c.name, name, uri, line, character⟩)]) (s.withStack (o :: s.stack))
  | got {hash uri name full line character o v s c id} (h : Answered calls s hash o c ⟨full, .getter id name⟩)
      (hv : o.held? id = some v) :
    Supplied calls (.call hash uri line character) o s .back (s.withStack (v :: s.stack))
  | put {hash uri full line character o v s c id stack} (h : Answered calls s hash o c ⟨full, .setter id⟩)
      (hs : s.stack = v :: stack) :
    Supplied calls (.call hash uri line character) o s .back
      { s with made := s.made + 1, stack := o.set s.made id v :: stack }
  | result {o : Object} {s : State} : Supplied calls .result o s (.finish (some o)) s

/-- Why there is no method to call. -/
inductive Unanswered (calls : Calls) (s : State) (hash : UInt64) (o : Object) : Cause → Prop where
  | classless (hc : o.cls = none) : Unanswered calls s hash o (.classless o.render)
  | noClass {c} (hc : o.cls = some c) (hk : s.classes.lookup c.id = none) : Unanswered calls s hash o (.noClass c.id)
  | notUnderstood {c k} (hc : o.cls = some c) (hk : s.classes.lookup c.id = some k) (hm : k.method? hash = none) :
    Unanswered calls s hash o (.notUnderstood hash o.render)
  | overflow (name : Bytes) (h : s.maxDepth ≤ calls.depth) : Unanswered calls s hash o (.overflow name)

inductive Refused (calls : Calls) : Want → Object → State → Fault → State → Prop where
  | foreign {want : Want} {o : Object} {s : State} : Refused calls want o s .foreign s
  | raised {o : Object} {s : State} : Refused calls .panic o s (.panic ⟨.raised o.render, calls.frames.reverse⟩) s
  | bare {n : Native} {o : Object} {s : State} (hs : s.stack = []) : Refused calls (.receiver n) o s (emptied calls) s
  | operand {n o p} {s : State} {t stack e} (hs : s.stack = p :: stack)
      (h : Refused calls (.operand n o) p (s.withStack stack) e t) : Refused calls (.receiver n) o s e t
  | unworkable {n receiver o s e} (h : Unworkable calls e) : Refused calls (.operand n receiver) o s e s
  | unanswered {hash uri line character o s c} (h : Unanswered calls s hash o c) :
    Refused calls (.call hash uri line character) o s (.panic ⟨c, calls.frames.reverse⟩) s
  | unset {hash id uri name full line character o s c} (h : Answered calls s hash o c ⟨full, .getter id name⟩) :
    Refused calls (.call hash uri line character) o s
      (.panic ⟨.unsetVariable name o.render, (calls.push ⟨c.name, full, uri, line, character⟩).frames.reverse⟩) s
  | nothing {hash id uri full line character o s c} (h : Answered calls s hash o c ⟨full, .setter id⟩)
      (hs : s.stack = []) :
    Refused calls (.call hash uri line character) o s (emptied (calls.push ⟨c.name, full, uri, line, character⟩)) s

theorem yields_force {forced : Step Move}
    (h : cell? o = none → Yields forced s (Supplied calls want o s) (Refused calls want o s)) :
    Yields (force o want calls forced) s (Supplied calls want o s) (Refused calls want o s) := by
  cases ho : cell? o with
  | none =>
    rw [force_plain ho]
    exact h ho
  | some cell =>
    simp only [force, cell?_eq_some.mp ho, yields_bind, yields_get]
    split
    · rename_i hc
      exact .work ho hc
    · rename_i hc
      exact .known ho hc
    · exact .foreign

theorem yields_enter {hash : UInt64} {uri : Bytes} {line character : Nat} {c : ClassRef} {m : Method}
    (h : Answered calls s hash o c m) (hsend : send hash uri line character o calls s =
      enter o m (calls.push ⟨c.name, m.name, uri, line, character⟩) (s.withStack (o :: s.stack))) :
    Yields (enter o m (calls.push ⟨c.name, m.name, uri, line, character⟩)) (s.withStack (o :: s.stack))
      (Supplied calls (.call hash uri line character) o s) (Refused calls (.call hash uri line character) o s) := by
  obtain ⟨name, body⟩ := m
  cases body with
  | code is => exact .entered h hsend
  | getter id var =>
    simp only [enter, yields_bind, yields_pop]
    refine ⟨?_, nofun⟩
    rintro _ _ ⟨⟩
    cases hv : o.held? id with
    | none => exact .unset h
    | some v => exact .got h hv
  | setter id =>
    simp only [enter, yields_bind, yields_pop]
    refine ⟨?_, nofun⟩
    rintro _ _ ⟨⟩
    exact ⟨fun v stack hs => .put h hs, .nothing h⟩

theorem yields_send (hash : UInt64) (uri : Bytes) (line character : Nat) (o : Object) :
    Yields (send hash uri line character o calls) s (Supplied calls (.call hash uri line character) o s)
      (Refused calls (.call hash uri line character) o s) := by
  cases hc : o.cls with
  | none =>
    simp only [send, hc]
    exact .unanswered (.classless hc)
  | some c =>
    cases hk : s.classes.lookup c.id with
    | none =>
      simp [send, hc, hk]
      exact .unanswered (.noClass hc hk)
    | some k =>
      cases hm : k.method? hash with
      | none =>
        simp [send, hc, hk, hm]
        exact .unanswered (.notUnderstood hc hk hm)
      | some m =>
        by_cases hd : calls.depth ≥ s.maxDepth
        · simp [send, hc, hk, hm, hd]
          exact .unanswered (.overflow m.name hd)
        · have hsend : send hash uri line character o calls s =
              enter o m (calls.push ⟨c.name, m.name, uri, line, character⟩) (s.withStack (o :: s.stack)) := by
            have hclass : classOf calls c.id s = .ok k s := by
              rw [classOf, get_bind, hk]
              rfl
            simp only [send, hc]
            rw [bind_of_ok hclass]
            simp only [hm]
            show (if calls.depth ≥ s.maxDepth then _ else _ : Step Move) s = _
            rw [if_neg hd]
            rfl
          unfold Yields
          rw [hsend]
          exact yields_enter ⟨hc, ⟨k, hk, hm⟩, Nat.lt_of_not_ge hd⟩ hsend

theorem yields_supplyOperand (n : Native) (receiver o : Object) : Yields (supplyOperand n receiver o calls) s
    (Supplied calls (.operand n receiver) o s) (Refused calls (.operand n receiver) o s) := by
  refine yields_force fun ho => ?_
  rw [yields_bind]
  refine (yields_compute n receiver o).mono ?_ ?_
  · rintro v _ ⟨⟨p, hp, hv⟩, rfl⟩
    exact .computed hp hv
  · rintro e _ ⟨he, rfl⟩
    exact .unworkable he

theorem yields_supply (want : Want) (o : Object) :
    Yields (supply want o calls) s (Supplied calls want o s) (Refused calls want o s) := by
  cases want with
  | panic => exact yields_force fun _ => .raised
  | call hash uri line character => exact yields_force fun _ => yields_send hash uri line character o
  | receiver n =>
    refine yields_force fun ho => ?_
    rw [yields_bind, yields_pop]
    refine ⟨fun p stack hs => ?_, .bare⟩
    exact (yields_supplyOperand n o p).mono (fun m t h => .operand ho hs h) fun e t h => .operand hs h
  | operand n receiver => exact yields_supplyOperand n receiver o
  | result => exact yields_force fun _ => .result

theorem yields_require (want : Want) : Yields (require want calls) s
    (fun m t => ∃ o stack, s.stack = o :: stack ∧ Supplied calls want o (s.withStack stack) m t)
    (fun e t => (s.stack = [] ∧ e = emptied calls ∧ t = s) ∨
      ∃ o stack, s.stack = o :: stack ∧ Refused calls want o (s.withStack stack) e t) := by
  rw [require, yields_bind, yields_pop]
  refine ⟨fun o stack hs => ?_, fun hs => .inl ⟨hs, rfl, rfl⟩⟩
  exact (yields_supply want o).mono (fun m t h => ⟨o, stack, hs, h⟩) fun e t h => .inr ⟨o, stack, hs, h⟩

/-! ### Instructions -/

inductive Ref where
  | cls (id : UInt64)
  | global (id : UInt64)
  deriving DecidableEq

def refs : Instruction → List Ref
  | .loadObject id | .markClass _ id => [.cls id]
  | .inheritMethod source target _ => [.cls source, .cls target]
  | .loadGlobal id => [.global id]
  | _ => []

def constant? : Instruction → Option Payload
  | .constString v => some (.string v)
  | .constSymbol v => some (.symbol v)
  | .constCharacter c => some (.character c)
  | .constInt w v => some (.int w v)
  | .constF32 bits => some (.f32 bits)
  | .constF64 bits => some (.f64 bits)
  | .constFBig r => some (.fBig r)
  | _ => none

def isPlain : Instruction → Bool
  | .halt | .panic | .beginMethod .. | .callMethod .. | .callNative _ | .return_ _ | .returnLazy _ => false
  | _ => true

def State.suspend (s : State) (body : List Instruction) (vs below : List Object) (calls : Calls) : State :=
  { s with
    cells := s.cells.push (.waiting body vs.reverse calls)
    made := s.made + 1
    stack := .mk s.made none (.lazy s.cells.size) [] :: below }

theorem State.cell_suspend {body : List Instruction} {i : Nat}
    {c : Cell} (h : (s.suspend body vs below calls).cells[i]? = some c) :
    i = s.cells.size ∧ c = .waiting body vs.reverse calls ∨ s.cells[i]? = some c := by
  rw [suspend, Array.getElem?_push] at h
  split at h
  · exact .inl ⟨‹_›, (Option.some.inj h).symm⟩
  · exact .inr h

inductive Loads (s : State) : Instruction → Object → Prop where
  | object {id k} (hk : s.classes.lookup id = some k) : Loads s (.loadObject id) (.mk s.made (some k.ref) .plain [])
  | loadLocal {k : UInt16} {o} (ho : s.stack[k.toNat]? = some o) : Loads s (.loadLocal k) o
  | loadGlobal {id o} (ho : s.globals.lookup id = some o) : Loads s (.loadGlobal id) o
  | constant {i p o} (hp : constant? i = some p) (ho : Boxed s p o) : Loads s i o

/-- What an instruction does that leads on to the next one. -/
inductive Performed (calls : Calls) (s : State) : Instruction → State → Prop where
  | noop : Performed calls s .noop s
  | reopened {id name} (hk : (s.classes.lookup id).isSome) :
    Performed calls s (.declareClass id name) { s with declaring := some id }
  | declared {id name} (hk : s.classes.lookup id = none) : Performed calls s (.declareClass id name) { s with
      classes := s.classes ++ [(id, Class.mk ⟨id, name⟩ [])]
      declaring := some id
      events := .classMade name :: s.events }
  | field {id c name k} (hd : s.declaring = some c) (hk : s.classes.lookup c = some k) :
    Performed calls s (.declareVariable id name) { s with classes := replaceClass (k.addVariable id name) s.classes }
  | inherited {source target hash parent heir m}
      (hparent : s.classes.lookup source = some parent) (hheir : s.classes.lookup target = some heir)
      (hm : parent.method? hash = some m) (hno : heir.method? hash = none) :
    Performed calls s (.inheritMethod source target hash)
      { s with classes := replaceClass (heir.addMethod hash m) s.classes }
  | kept {source target hash heir m} (hheir : s.classes.lookup target = some heir) (hm : heir.method? hash = some m) :
    Performed calls s (.inheritMethod source target hash) s
  | loaded {i o made} (h : Loads s i o) : Performed calls s i { s with made, stack := o :: s.stack }
  | dropped {k : UInt16} (hk : k.toNat < s.stack.length) :
    Performed calls s (.dropLocal k) (s.withStack (s.stack.eraseIdx k.toNat))
  | stored {id o stack} (hs : s.stack = o :: stack) :
    Performed calls s (.storeGlobal id) { s with stack, globals := (id, o) :: s.globals.filter (·.1 != id) }
  | suspended {n : UInt16} {body vs below} (hs : s.stack = vs ++ below) (hn : vs.length = n.toNat) :
    Performed calls s (.loadLazy n body) (s.suspend body vs below calls)
  | marked {m id k} (hk : s.classes.lookup id = some k) :
    Performed calls s (.markClass m id) { s with marks := (m, k.ref) :: s.marks }

inductive Lacks (s : State) : Instruction → Cause → Prop where
  | looseVariable {id name} : Lacks s (.declareVariable id name) (.looseVariable name)
  | undeclared {id c name} (hd : s.declaring = some c) (hk : s.classes.lookup c = none) :
    Lacks s (.declareVariable id name) (.noClass c)
  | looseEnd : Lacks s .endMethod .looseEnd
  | noClass {i id} (hi : .cls id ∈ refs i) (hk : s.classes.lookup id = none) : Lacks s i (.noClass id)
  | nothingToInherit {source target hash name} :
    Lacks s (.inheritMethod source target hash) (.nothingToInherit name hash)
  | missingLocal {i : Instruction} {k : UInt16} (hi : i = .loadLocal k ∨ i = .dropLocal k)
      (hk : s.stack.length ≤ k.toNat) : Lacks s i .missingLocal
  | emptyStack {id} (hs : s.stack = []) : Lacks s (.storeGlobal id) .emptyStack
  | unsetGlobal {id} (ho : s.globals.lookup id = none) : Lacks s (.loadGlobal id) (.unsetGlobal id)

inductive Unperformed (calls : Calls) (s : State) : Instruction → Fault → State → Prop where
  | lacks {i c} (h : Lacks s i c) : Unperformed calls s i (.panic ⟨c, calls.frames.reverse⟩) s
  | emptied {n : UInt16} {body} (hs : s.stack.length < n.toNat) :
    Unperformed calls s (.loadLazy n body) (emptied calls) (s.withStack [])
  | unmarked {i p} (hp : constant? i = some p) (m : Mark) : Unperformed calls s i (.unmarked m) s

theorem yields_perform (hi : isPlain i) :
    Yields (perform calls i) s (fun _ => Performed calls s i) (Unperformed calls s i) := by
  have constant {i : Instruction} {p : Payload} (hp : constant? i = some p) :
      Yields (boxed p >>= push) s (fun _ => Performed calls s i) (Unperformed calls s i) := by
    rw [yields_bind]
    refine (yields_boxed p).mono ?_ ?_
    · rintro o _ ⟨ho, rfl⟩
      exact .loaded (.constant hp ho)
    · rintro _ _ ⟨m, rfl, rfl⟩
      exact .unmarked hp m
  cases i with
  | noop => exact .noop
  | declareClass id name =>
    simp only [perform, yields_bind, yields_get]
    cases hk : s.classes.lookup id with
    | none => exact .declared hk
    | some k => exact .reopened (by rw [hk]; rfl)
  | declareVariable id name =>
    simp only [perform, yields_bind, yields_get]
    cases hd : s.declaring with
    | none => exact .lacks .looseVariable
    | some c =>
      simp only [yields_bind, yields_classOf, yields_putClass]
      exact ⟨fun k hk => .field hd hk, fun hk => .lacks (.undeclared hd hk)⟩
  | endMethod => exact .lacks .looseEnd
  | inheritMethod source target hash =>
    simp only [perform, yields_bind, yields_classOf]
    refine ⟨fun parent hparent => ⟨fun heir hheir => ?_, fun hk => ?_⟩, fun hk => ?_⟩
    · cases hm : parent.method? hash with
      | none => exact .lacks .nothingToInherit
      | some m =>
        cases hown : heir.method? hash with
        | none => exact .inherited hparent hheir hm hown
        | some own => exact .kept hheir hown
    · exact .lacks (.noClass (by simp [refs]) hk)
    · exact .lacks (.noClass (by simp [refs]) hk)
  | loadObject id =>
    simp only [perform, yields_bind, yields_classOf]
    exact ⟨fun k hk => .loaded (.object hk), fun hk => .lacks (.noClass (by simp [refs]) hk)⟩
  | loadLocal k =>
    simp only [perform, yields_bind, yields_get]
    cases ho : s.stack[k.toNat]? with
    | none => exact .lacks (.missingLocal (.inl rfl) (List.getElem?_eq_none_iff.mp ho))
    | some o => exact .loaded (.loadLocal ho)
  | dropLocal k =>
    simp only [perform, yields_bind, yields_get]
    cases hw : without? (k.toNat + 1) s.stack with
    | none => exact .lacks (.missingLocal (.inr rfl) (Nat.le_of_lt_succ (without?_eq_none.mp hw)))
    | some rest =>
      obtain ⟨hk, rfl⟩ := without?_eq_some.mp hw
      rw [yields_set, ← eraseIdx_eq_take_drop_succ]
      exact .dropped hk
  | storeGlobal id =>
    simp only [perform, yields_bind, yields_pop]
    exact ⟨fun o stack hs => .stored hs, fun hs => .lacks (.emptyStack hs)⟩
  | loadGlobal id =>
    simp only [perform, yields_bind, yields_get]
    cases ho : s.globals.lookup id with
    | none => exact .lacks (.unsetGlobal ho)
    | some o => exact .loaded (.loadGlobal ho)
  | loadLazy n body =>
    simp only [perform, yields_bind]
    refine (yields_popMany n.toNat).mono ?_ ?_
    · rintro vs _ ⟨below, hs, hn, rfl⟩
      exact .suspended hs hn
    · rintro _ _ ⟨hs, rfl, rfl⟩
      exact .emptied hs
  | markClass m id =>
    simp only [perform, yields_bind, yields_classOf]
    exact ⟨fun k hk => .marked hk, fun hk => .lacks (.noClass (by simp [refs]) hk)⟩
  | constString | constSymbol | constCharacter | constInt | constF32 | constF64 | constFBig => exact constant rfl
  | _ => cases hi

structure Defined (s : State) (hash : UInt64) (name : Bytes) (code rest : List Instruction) (t : State) : Prop where
  ends : ∃ i, code.dropWhile (!isEnd ·) = i :: rest
  cls : ∃ c k, s.declaring = some c ∧ s.classes.lookup c = some k ∧ t = { s with
    classes := replaceClass (k.addMethod hash ⟨name, .code (code.takeWhile (!isEnd ·))⟩) s.classes }

inductive Undefined (s : State) : Cause → Prop where
  | openMethod (name : Bytes) : Undefined s (.openMethod name)
  | looseMethod (name : Bytes) : Undefined s (.looseMethod name)
  | noClass {c} (hd : s.declaring = some c) (hk : s.classes.lookup c = none) : Undefined s (.noClass c)

theorem yields_define (hash : UInt64) (name : Bytes) (code : List Instruction) :
    Yields (define calls hash name code) s (Defined s hash name code)
      (fun e t => ∃ c, Undefined s c ∧ e = .panic ⟨c, calls.frames.reverse⟩ ∧ t = s) := by
  unfold define
  cases hdrop : code.dropWhile (!isEnd ·) with
  | nil => exact ⟨_, .openMethod name, rfl, rfl⟩
  | cons i rest =>
    simp only [yields_bind, yields_get]
    cases hd : s.declaring with
    | none => exact ⟨_, .looseMethod name, rfl, rfl⟩
    | some c =>
      rw [yields_bind, yields_classOf]
      exact ⟨fun k hk => ⟨⟨i, hdrop⟩, c, k, hd, hk, rfl⟩, fun hk => ⟨_, .noClass hd hk, rfl, rfl⟩⟩

/-! ### Steps -/

def Move.tasks : Move → List Task
  | .ahead ts => ts
  | _ => []

def State.settled (s : State) (cell : Nat) (v : Object) : State :=
  { s with cells := s.cells.setIfInBounds cell (.done v) }

theorem State.cell_settled {i : Nat} {v : Object} {c : Cell} (h : (s.settled cell v).cells[i]? = some c) :
    c = .done v ∨ s.cells[i]? = some c := by
  rw [settled, Array.getElem?_setIfInBounds] at h
  split at h
  · split at h <;> simp_all
  · exact .inr h

def Task.settles (t : Task) (s : State) (o : Object) : State :=
  match t with
  | .await cell _ _ => s.settled cell o
  | .run .. => s

/-- Where code leads that has come to its end. -/
def left (halted : Bool) : List Task → Next
  | [] => .finish none
  | .run code calls :: ts => if halted then left halted ts else .go (.run code calls :: ts)
  | .await cell want calls :: ts => .go (.await cell want calls :: ts)

/-- The calls at work where code leads that has come to its end: those of the last task that was passed. -/
def leftCalls (halted : Bool) (c : Calls) : List Task → Calls
  | [] => c
  | .run _ calls :: ts => if halted then leftCalls halted calls ts else calls
  | .await _ _ calls :: _ => calls

def Move.next (halted : Bool) (ts : List Task) : Move → Next
  | ahead us => .go (us ++ ts)
  | back => left halted ts
  | finish result => .finish result

def Move.nextCalls (halted : Bool) (ts : List Task) (c : Calls) : Move → Calls
  | ahead [] => c
  | ahead (x :: _) => x.calls
  | back => leftCalls halted c ts
  | finish _ => c

theorem leave_eq (ts : List Task) (s : State) :
    leave ts s = .ok (left s.halted ts) (s.withCalls (leftCalls s.halted s.calls ts)) := by
  induction ts generalizing s with
  | nil => rfl
  | cons t ts ih =>
    cases t with
    | await => rfl
    | run code calls =>
      show (if s.halted then leave ts else pure (.go (.run code calls :: ts)) : Step Next) (s.withCalls calls) = _
      rw [left, leftCalls]
      split
      · exact ih (s.withCalls calls)
      · rfl

theorem onto_eq (m : Move) (ts : List Task) (s : State) :
    m.onto ts s = .ok (m.next s.halted ts) (s.withCalls (m.nextCalls s.halted ts s.calls)) := by
  cases m with
  | ahead us => cases us <;> rfl
  | back => exact leave_eq ts s
  | finish => rfl

/-- What a step on a task comes to, with tasks below it. -/
inductive Stepped (s : State) : Task → List Task → Next → State → Prop where
  | ended {calls : Calls} {ts : List Task} :
    Stepped s (.run [] calls) ts (left s.halted ts) (s.withCalls (leftCalls s.halted s.calls ts))
  | halted {is calls ts} : Stepped s (.run (.halt :: is) calls) ts (left true ts) { s with
      halted := true, calls := leftCalls true s.calls ts }
  | returned {i is calls ts n o stack} (hi : i = .return_ n ∨ i = .returnLazy n) (hs : s.stack = o :: stack)
      (hn : n.toNat ≤ stack.length) :
    Stepped s (.run (i :: is) calls) ts (left s.halted ts)
      ((s.withStack (o :: stack.drop n.toNat)).withCalls (leftCalls s.halted s.calls ts))
  | defined {hash name is rest calls ts t} (h : Defined s hash name is rest t) :
    Stepped s (.run (.beginMethod hash name :: is) calls) ts (.go (.run rest calls :: ts)) t
  | performed {i is calls ts t} (hi : isPlain i) (h : Performed s.calls s i t) :
    Stepped s (.run (i :: is) calls) ts (.go (.run is calls :: ts)) t
  | supplied {x : Task} {ts want o stack m t} (hw : x.want? = some want) (hs : s.stack = o :: stack)
      (h : Supplied s.calls want o ((x.settles s o).withStack stack) m t) :
    Stepped s x ts (m.next t.halted (x.behind ++ ts)) (t.withCalls (m.nextCalls t.halted (x.behind ++ ts) t.calls))

inductive Stuck (s : State) : Task → Fault → State → Prop where
  | short {i is calls n o stack} (hi : i = .return_ n ∨ i = .returnLazy n) (hs : s.stack = o :: stack)
      (hn : stack.length < n.toNat) :
    Stuck s (.run (i :: is) calls) (.panic ⟨.shortStack n.toNat stack.length, s.calls.frames.reverse⟩)
      (s.withStack stack)
  | undefined {hash name is calls c} (h : Undefined s c) :
    Stuck s (.run (.beginMethod hash name :: is) calls) (.panic ⟨c, s.calls.frames.reverse⟩) s
  | unperformed {i is calls e t} (hi : isPlain i) (h : Unperformed s.calls s i e t) : Stuck s (.run (i :: is) calls) e t
  | emptied {x : Task} (hs : s.stack = []) (hx : x.want?.isSome ∨ ∃ i is calls n, x = .run (i :: is) calls ∧
      (i = .return_ n ∨ i = .returnLazy n)) : Stuck s x (emptied s.calls) s
  | refused {x : Task} {want o stack e t} (hw : x.want? = some want) (hs : s.stack = o :: stack)
      (h : Refused s.calls want o ((x.settles s o).withStack stack) e t) : Stuck s x e t

section

variable {Q : Next → State → Prop} {E : Fault → State → Prop}

theorem yields_leave (ts : List Task) :
    Yields (leave ts) s Q E ↔ Q (left s.halted ts) (s.withCalls (leftCalls s.halted s.calls ts)) := by
  rw [Yields, leave_eq]

theorem yields_onto (m : Move) (ts : List Task) :
    Yields (m.onto ts) s Q E ↔ Q (m.next s.halted ts) (s.withCalls (m.nextCalls s.halted ts s.calls)) := by
  rw [Yields, onto_eq]

end

theorem yields_leaveValue : Yields (leaveValue calls n) s
    (fun _ t => ∃ o stack, s.stack = o :: stack ∧ n ≤ stack.length ∧ t = s.withStack (o :: stack.drop n))
    (fun e t => s.stack = [] ∧ e = emptied calls ∧ t = s ∨ ∃ o stack, s.stack = o :: stack ∧ stack.length < n ∧
      e = .panic ⟨.shortStack n stack.length, calls.frames.reverse⟩ ∧ t = s.withStack stack) := by
  rw [leaveValue, yields_bind, yields_pop]
  refine ⟨fun o stack hs => ?_, fun hs => .inl ⟨hs, rfl, rfl⟩⟩
  rw [yields_bind, yields_get, State.stack_withStack]
  cases hw : without? n stack with
  | none => exact .inr ⟨o, stack, hs, without?_eq_none.mp hw, rfl, rfl⟩
  | some rest =>
    obtain ⟨hn, rfl⟩ := without?_eq_some.mp hw
    exact ⟨o, stack, hs, hn, rfl⟩

theorem settle_cons (h : s.stack = o :: stack) : settle cell want calls s = require want calls (s.settled cell o) := by
  obtain ⟨_, _, _, _⟩ := s
  cases h
  rfl

theorem settle_ok (h : settle cell want calls s = .ok m t) :
    ∃ v stack, s.stack = v :: stack ∧ Supplied calls want v ((s.settled cell v).withStack stack) m t := by
  cases hs : s.stack with
  | nil =>
    rw [settle, bind_of_error (pop_nil calls hs)] at h
    cases h
  | cons v stack =>
    rw [settle_cons hs] at h
    obtain ⟨o, below, hst, h⟩ := (yields_require want).ok h
    obtain ⟨rfl, rfl⟩ := List.cons.inj (hs.symm.trans hst)
    exact ⟨_, _, rfl, h⟩

theorem yields_step (x : Task) (ts : List Task) : Yields (step (x :: ts)) s (Stepped s x ts) (Stuck s x) := by
  have wants {x : Task} {want : Want} {r : Step Move} (hw : x.want? = some want)
      (hnil : s.stack = [] → r s = .error (emptied s.calls) s)
      (hr : ∀ o stack, s.stack = o :: stack → r s = require want s.calls (x.settles s o)) :
      Yields (r >>= Move.onto (x.behind ++ ts)) s (Stepped s x ts) (Stuck s x) := by
    rw [yields_bind]
    cases hs : s.stack with
    | nil =>
      rw [Yields, hnil hs]
      exact .emptied hs (.inl (by rw [hw]; rfl))
    | cons o stack =>
      have hst : (x.settles s o).stack = o :: stack := by
        cases x <;> exact hs
      rw [Yields, hr o stack hs]
      refine (yields_require want).mono ?_ ?_
      · rintro m t ⟨p, below, hp, h⟩
        obtain ⟨rfl, rfl⟩ := List.cons.inj (hst.symm.trans hp)
        rw [yields_onto]
        exact .supplied hw hs h
      · rintro e t (⟨hnil, -⟩ | ⟨p, below, hp, h⟩)
        · cases hst.symm.trans hnil
        · obtain ⟨rfl, rfl⟩ := List.cons.inj (hst.symm.trans hp)
          exact .refused hw hs h
  have returns {i : Instruction} {is : List Instruction} {calls : Calls} {n : UInt16}
      (hi : i = .return_ n ∨ i = .returnLazy n) : Yields (leaveValue s.calls n.toNat >>= fun _ => leave ts) s
      (Stepped s (.run (i :: is) calls) ts) (Stuck s (.run (i :: is) calls)) := by
    rw [yields_bind]
    refine yields_leaveValue.mono ?_ ?_
    · rintro _ _ ⟨o, stack, hs, hn, rfl⟩
      rw [yields_leave]
      exact .returned hi hs hn
    · rintro _ _ (⟨hs, rfl, rfl⟩ | ⟨o, stack, hs, hn, rfl, rfl⟩)
      · exact .emptied (x := .run (i :: is) calls) hs (.inr ⟨i, is, calls, n, rfl, hi⟩)
      · exact .short hi hs hn
  have wanted {i : Instruction} {is : List Instruction} {calls : Calls} {want : Want}
      (hw : (Task.run (i :: is) calls).want? = some want) :
      Yields (require want s.calls >>= Move.onto (.run is calls :: ts)) s (Stepped s (.run (i :: is) calls) ts)
        (Stuck s (.run (i :: is) calls)) :=
    wants (x := .run (i :: is) calls) hw (fun hs => bind_of_error (pop_nil s.calls hs)) fun _ _ _ => rfl
  cases x with
  | await cell want calls =>
    rw [step, yields_bind, yields_get]
    exact wants (x := .await cell want calls) rfl (fun hs => bind_of_error (pop_nil s.calls hs)) fun _ _ => settle_cons
  | run code calls =>
    cases code with
    | nil =>
      simp only [step, yields_leave]
      exact .ended
    | cons i is =>
      cases i with
      | halt =>
        simp only [step, yields_bind, yields_modify, yields_leave]
        exact .halted
      | panic | callMethod | callNative => exact wanted rfl
      | beginMethod hash name =>
        simp only [step, yields_bind]
        refine (yields_define hash name is).mono (fun rest t h => .defined h) ?_
        rintro _ _ ⟨c, hc, rfl, rfl⟩
        exact .undefined hc
      | return_ => exact returns (.inl rfl)
      | returnLazy => exact returns (.inr rfl)
      | _ =>
        simp only [step, yields_bind, yields_get]
        exact (yields_perform rfl).mono (fun _ t h => .performed rfl h) fun e t h => .unperformed rfl h

/-! ### What stays -/

theorem Supplied.frame (h : Supplied calls want o s m t) : ∃ made stack, t = { s with made, stack } := by
  induction h with
  | operand _ _ _ ih =>
    obtain ⟨made, stack, rfl⟩ := ih
    exact ⟨made, stack, rfl⟩
  | _ => exact ⟨_, _, rfl⟩

theorem Refused.frame (h : Refused calls want o s e t) :
    e ≠ .unfinished ∧ ∃ stack, stack <:+ s.stack ∧ t = s.withStack stack := by
  induction h with
  | operand hs _ ih =>
    obtain ⟨he, stack, hsuffix, rfl⟩ := ih
    exact ⟨he, stack, hs ▸ hsuffix.trans (suffix_cons _ _), rfl⟩
  | @unworkable _ _ _ s _ h => exact ⟨by cases h <;> nofun, s.stack, suffix_refl _, rfl⟩
  | @foreign _ _ s | @raised _ s | @bare _ _ s | @unanswered _ _ _ _ _ s | @unset _ _ _ _ _ _ _ _ s
  | @nothing _ _ _ _ _ _ _ s => exact ⟨nofun, s.stack, suffix_refl _, rfl⟩

theorem Stepped.stays {x : Task} {next : Next} (h : Stepped s x ts next t) :
    t.maxDepth = s.maxDepth ∧ (s.halted → t.halted) := by
  cases h with
  | defined h =>
    obtain ⟨-, c, k, -, -, rfl⟩ := h
    exact ⟨rfl, fun h => h⟩
  | performed _ h => cases h <;> exact ⟨rfl, fun h => h⟩
  | supplied _ _ h =>
    obtain ⟨made, stack, rfl⟩ := h.frame
    cases x <;> exact ⟨rfl, fun h => h⟩
  | halted => exact ⟨rfl, fun _ => rfl⟩
  | _ => exact ⟨rfl, fun h => h⟩

/-- A step that fails has taken values at most, and may have settled a cell. -/
theorem Stuck.frame {x : Task} (h : Stuck s x e t) :
    e ≠ .unfinished ∧ ∃ v stack, (v = s ∨ ∃ o ∈ s.stack, v = x.settles s o) ∧ stack <:+ s.stack ∧
      t = v.withStack stack := by
  cases h with
  | short _ hs => grind
  | undefined | emptied => exact ⟨nofun, s, s.stack, .inl rfl, suffix_refl _, rfl⟩
  | unperformed _ h =>
    cases h with
    | emptied => exact ⟨nofun, s, [], .inl rfl, nil_suffix, rfl⟩
    | _ => exact ⟨nofun, s, s.stack, .inl rfl, suffix_refl _, rfl⟩
  | @refused _ _ o _ _ _ _ hs h =>
    obtain ⟨he, stack, hsuffix, rfl⟩ := h.frame
    refine ⟨he, _, stack, .inr ⟨o, hs ▸ mem_cons_self, rfl⟩, ?_, rfl⟩
    exact hs ▸ hsuffix.trans (suffix_cons _ _)

theorem Stuck.maxDepth {x : Task} (h : Stuck s x e t) : t.maxDepth = s.maxDepth := by
  obtain ⟨-, v, stack, rfl | ⟨o, -, rfl⟩, -, rfl⟩ := h.frame
  · rfl
  · cases x <;> rfl

/-- What a machine comes to, step after step. -/
inductive Reaches (ts : List Task) (s : State) : List Task → State → Prop where
  | refl : Reaches ts s ts s
  | step {us vs t u} (h : Reaches ts s us t) (hstep : Machine.step us t = .ok (.go vs) u) : Reaches ts s vs u

theorem step_ok {next : Next} (h : step ts s = .ok next t) :
    (ts = [] ∧ next = .finish none ∧ t = s) ∨ ∃ x xs, ts = x :: xs ∧ Stepped s x xs next t := by
  cases ts with
  | nil =>
    cases h
    exact .inl ⟨rfl, rfl, rfl⟩
  | cons x xs => exact .inr ⟨x, xs, rfl, (yields_step x xs).ok h⟩

theorem step_error (h : step ts s = .error e t) : ∃ x xs, ts = x :: xs ∧ Stuck s x e t := by
  cases ts with
  | nil => cases h
  | cons x xs => exact ⟨x, xs, rfl, (yields_step x xs).error h⟩

theorem unwound_eq (ts : List Task) (s : State) :
    unwound ts s = s.withCalls ((ts.getLast?.map Task.calls).getD s.calls) := by
  induction ts generalizing s with
  | nil => rfl
  | cons x ts ih =>
    rw [unwound, foldl_cons, ← unwound, ih, getLast?_cons]
    cases ts.getLast? <;> rfl

@[simp] theorem maxDepth_unwound (ts : List Task) (s : State) : (unwound ts s).maxDepth = s.maxDepth := by
  rw [unwound_eq]
  rfl

@[simp] theorem yields_unwinding (ts : List Task) (x : Step α) {Q : α → State → Prop} :
    Yields (unwinding ts x) s Q E ↔ Yields x s Q fun e t => E e (unwound ts t) := by
  simp only [Yields, unwinding]
  cases x s <;> rfl

theorem unwinding_ok {a : α} : unwinding ts x s = .ok a t ↔ x s = .ok a t := by
  unfold unwinding
  cases x s <;> simp

theorem unwinding_error (h : x s = .error e t) : unwinding ts x s = .error e (unwound ts t) := by
  rw [unwinding, h]

/-- A run ends with a last step, unless it takes more of them than it may. -/
theorem yields_iterate (fuel : Nat) (ts : List Task) : Yields (iterate step fuel ts) s
    (fun q t => ∃ us u, Reaches ts s us u ∧ step us u = .ok (.finish q) t)
    (fun e t => ∃ us u v, Reaches ts s us u ∧ (e = .unfinished ∧ v = u ∨ step us u = .error e v) ∧
      t = unwound us v) := by
  suffices hgo : ∀ {us : List Task} {u : State}, Reaches ts s us u → Yields (iterate step fuel us) u
      (fun q t => ∃ us u, Reaches ts s us u ∧ step us u = .ok (.finish q) t)
      (fun e t => ∃ us u v, Reaches ts s us u ∧ (e = .unfinished ∧ v = u ∨ step us u = .error e v) ∧
        t = unwound us v) from hgo .refl
  induction fuel with
  | zero => exact fun hr => ⟨_, _, _, hr, .inl ⟨rfl, rfl⟩, rfl⟩
  | succ fuel ih =>
    intro us u hr
    rw [iterate, yields_bind, yields_unwinding]
    cases hstep : step us u with
    | error e t =>
      rw [Yields, hstep]
      exact ⟨us, u, t, hr, .inr hstep, rfl⟩
    | ok next t =>
      rw [Yields, hstep]
      cases next with
      | go vs => exact ih (hr.step hstep)
      | finish q => exact ⟨us, u, hr, hstep⟩

/-! ### Single instructions -/

theorem step_plain (hi : isPlain i) (is : List Instruction) (calls : Calls)
    (rest : List Task) (s : State) : step (.run (i :: is) calls :: rest) s =
      (perform s.calls i >>= fun _ => pure (.go (.run is calls :: rest))) s := by
  cases i with
  | halt | panic | beginMethod | callMethod | callNative | return_ | returnLazy => cases hi
  | _ => rfl

theorem step_of_perform (hi : isPlain i) (is : List Instruction) (calls : Calls)
    (rest : List Task) (hp : perform s.calls i s = .ok () t) :
    step (.run (i :: is) calls :: rest) s = .ok (.go (.run is calls :: rest)) t := by
  rw [step_plain hi, bind_of_ok hp]
  rfl

theorem perform_loadLocal (calls : Calls) (h : s.stack[k.toNat]? = some o) :
    perform calls (.loadLocal k) s = .ok () (s.withStack (o :: s.stack)) := by
  rw [perform, get_bind, h]
  rfl

theorem perform_dropLocal (calls : Calls) (h : k.toNat < s.stack.length) :
    perform calls (.dropLocal k) s = .ok () (s.withStack (s.stack.eraseIdx k.toNat)) := by
  have hw : without? (k.toNat + 1) s.stack = some (s.stack.drop (k.toNat + 1)) :=
    without?_eq_some.mpr ⟨h, rfl⟩
  rw [perform, get_bind, hw, eraseIdx_eq_take_drop_succ]
  rfl

theorem popMany_eq (calls : Calls) (n : Nat) (hs : s.stack = vs ++ below)
    (hn : vs.length = n) : (List.replicate n ()).mapM (fun _ => pop calls) s = .ok vs (s.withStack below) := by
  induction vs generalizing n s with
  | nil =>
    subst hn
    obtain rfl : s.stack = below := hs
    rfl
  | cons v vs ih =>
    subst hn
    rw [length_cons, replicate_succ, mapM_cons, bind_of_ok (pop_cons calls hs),
      bind_of_ok (ih _ rfl rfl)]
    rfl

theorem perform_loadLazy (body : List Instruction) (calls : Calls)
    (hs : s.stack = vs ++ below) (hk : vs.length = k.toNat) :
    perform calls (.loadLazy k body) s = .ok () (s.suspend body vs below calls) := by
  have hp := popMany_eq calls k.toNat hs hk
  show ((List.replicate k.toNat ()).mapM (fun _ => pop calls) >>= _) s = _
  rw [bind_of_ok hp]
  rfl

/-- Whether an instruction puts a value on top, whatever is there. -/
def loads : Instruction → Bool
  | .loadObject _ | .loadGlobal _ | .constString _ | .constCharacter _ | .constSymbol _
  | .constInt .. | .constF32 _ | .constF64 _ | .constFBig _ => true
  | _ => false

theorem isPlain_of_loads (h : loads i) : isPlain i := by
  cases i with
  | halt | panic | beginMethod | callMethod | callNative | return_ | returnLazy => cases h
  | _ => rfl

theorem perform_load (hi : loads i) (calls : Calls) (s : State) :
    Yields (perform calls i) s (fun _ t => ∃ v n, t = { s with made := n, stack := v :: s.stack })
      (fun e _ => e.isShortage = false) := by
  refine (yields_perform (isPlain_of_loads hi)).mono (fun _ t h => ?_) fun e t h => ?_
  · cases h with
    | loaded => exact ⟨_, _, rfl⟩
    | _ => cases hi
  · cases h with
    | unmarked => rfl
    | emptied => cases hi
    | lacks h =>
      cases h with
      | missingLocal h => rcases h with rfl | rfl <;> cases hi
      | noClass | unsetGlobal => rfl
      | _ => cases hi

end Parlance.Machine
