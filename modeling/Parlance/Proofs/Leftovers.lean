import Mathlib.Data.List.Chain
import Parlance.Proofs.Halting
/-!
Programs that share a machine: what a program does on an empty stack it does above whatever is there.
-/
namespace Parlance.Machine

open List

variable {α β : Type} {x : Step α} {base : List Object} {s t : State}

/-- The state with more at the bottom of its stack. -/
def State.above (base : List Object) (s : State) : State := s.atop s.halted base

/-- Done above something, a step does what it does without it. -/
def Framed (x : Step α) : Prop :=
  ∀ base s a t, x s = .ok a t → x (s.above base) = .ok a (t.above base)

theorem Blind.framed (hx : Blind x) : Framed x := by
  intro base s a t h
  rw [State.above, State.above, hx.halted h]
  exact (hx s.halted base s).ok h

theorem Framed.bind {f : α → Step β} (hx : Framed x) (hf : ∀ a, Framed (f a)) : Framed (x >>= f) := by
  intro base s b t h
  obtain ⟨a, u, hu, h⟩ := bind_ok.mp h
  exact (bind_of_ok (hx base s a u hu)).trans (hf a base u b t h)

theorem Framed.calls {f : Calls → Step α} (hf : ∀ c, Framed (f c)) : Framed (get >>= fun s => f s.calls) :=
  fun base s a t h => hf s.calls base s a t h

theorem framed_leave (ts : List Task) : Framed (leave ts) := by
  intro base s a t h
  rw [leave_eq] at h ⊢
  cases h
  rfl

theorem framed_onto {x : Step Move} (hx : Framed x) (ts : List Task) : Framed (x >>= Move.onto ts) := by
  refine hx.bind fun m base s a t h => ?_
  rw [onto_eq] at h ⊢
  cases h
  rfl

theorem framed_step (ts : List Task) : Framed (step ts) := by
  match ts with
  | [] => exact (Blind.pure _).framed
  | .await cell want _ :: rest => exact Framed.calls fun c => framed_onto (blind_settle cell want c).framed rest
  | .run [] _ :: rest => exact framed_leave rest
  | .run (i :: is) calls :: rest =>
    cases i with
    | halt =>
      refine Framed.calls fun _ => Framed.bind (fun base s a t h => ?_) fun _ => framed_leave rest
      cases h
      rfl
    | panic | callMethod | callNative => exact Framed.calls fun c => framed_onto (blind_require _ c).framed _
    | beginMethod hash name =>
      exact Framed.calls (f := fun c => define c hash name is >>= fun code => pure (Next.go (.run code calls :: rest)))
        fun c => ((blind_define c hash name is).bind fun _ => .pure _).framed
    | return_ n | returnLazy n =>
      exact Framed.calls fun c => (blind_leaveValue c _).framed.bind fun _ => framed_leave rest
    | _ =>
      intro base s a t h
      rw [step_plain rfl] at h ⊢
      exact ((blind_perform s.calls _).bind fun _ => .pure _).framed base s a t h

theorem framed_unwinding (hx : Framed x) (ts : List Task) : Framed (unwinding ts x) :=
  fun base s a t h => unwinding_ok.mpr (hx base s a t (unwinding_ok.mp h))

theorem framed_iterate (fuel : Nat) (ts : List Task) : Framed (iterate step fuel ts) := by
  induction fuel generalizing ts with
  | zero => exact framed_unwinding (Blind.throw _).framed ts
  | succ fuel ih =>
    refine (framed_unwinding (framed_step ts) ts).bind fun next => ?_
    cases next with
    | go ts => exact ih ts
    | finish result => exact (Blind.pure _).framed

theorem framed_report (hx : Framed x) : Framed (report x) :=
  fun base s a t h => report_ok.mpr (hx base s a t (report_ok.mp h))

theorem framed_eval (p : List Instruction) : Framed (eval p) := by
  refine Framed.bind (fun base s a t h => ?_) fun _ =>
    Framed.calls (f := fun c => report (iterate step patience [.run p c]) >>= fun _ => pure ()) fun _ =>
      (framed_report (framed_iterate _ _)).bind fun _ => (Blind.pure _).framed
  cases h
  rfl

theorem framed_evalPop : Framed evalPop := by
  refine framed_report (Framed.calls fun c => (framed_onto (blind_require _ c).framed []).bind fun next => ?_)
  cases next with
  | go ts => exact framed_iterate _ ts
  | finish result => exact (Blind.pure _).framed

/-! ### Values that are taken -/

/-- A value is given at the end, or some task waits for it. -/
def Owes : Next → Prop
  | .go ts => ∃ c calls, Task.await c .result calls ∈ ts
  | .finish v => v.isSome

theorem Owes.left {ts : List Task} (h : Owes (.go ts)) (b : Bool) : Owes (left b ts) := by
  obtain ⟨c, calls, h⟩ := h
  induction ts with
  | nil => cases h
  | cons x ts ih =>
    cases x with
    | await => exact ⟨c, calls, h⟩
    | run code calls' =>
      have h' : Task.await c .result calls ∈ ts := (mem_cons.mp h).resolve_left nofun
      cases b with
      | false => exact ⟨c, calls, h⟩
      | true => exact ih h'

theorem owes_supplied {calls : Calls} {want : Want} {o : Object} {m : Move} {ts : List Task}
    (h : Supplied calls want o s m t) (ho : want = .result ∨ Owes (.go ts)) (b : Bool) : Owes (m.next b ts) := by
  have hahead {us : List Task} (h : Owes (.go ts)) : Owes (.go (us ++ ts)) := by
    obtain ⟨c, calls, h⟩ := h
    exact ⟨c, calls, mem_append_right us h⟩
  induction h with
  | result => rfl
  | operand ho' hs h ih => exact ih (.inr (ho.resolve_left nofun))
  | @work _ _ _ cell | @known _ _ _ _ cell =>
    rcases ho with rfl | ho
    · exact ⟨cell, calls, by simp⟩
    · exact hahead ho
  | computed | entered => exact hahead (ho.resolve_left nofun)
  | got | put => exact (ho.resolve_left nofun).left b

theorem owes_step {ts : List Task} {next : Next} (h : step ts s = .ok next t) (ho : Owes (.go ts)) : Owes next := by
  obtain ⟨c, calls, hc⟩ := ho
  obtain ⟨rfl, -⟩ | ⟨x, xs, rfl, hx⟩ := step_ok h
  · cases hc
  cases hx with
  | ended | halted | returned => exact Owes.left ⟨c, calls, (mem_cons.mp hc).resolve_left nofun⟩ _
  | defined | performed => exact ⟨c, calls, mem_cons_of_mem _ ((mem_cons.mp hc).resolve_left nofun)⟩
  | supplied hw hs hm =>
    refine owes_supplied hm ?_ _
    rcases mem_cons.mp hc with rfl | hc
    · cases hw
      exact .inl rfl
    · exact .inr ⟨c, calls, mem_append_right _ hc⟩

theorem owes_iterate (fuel : Nat) {ts : List Task} {v : Option Object} (h : iterate step fuel ts s = .ok v t)
    (ho : Owes (.go ts)) : v.isSome := by
  induction fuel generalizing ts s with
  | zero => cases h
  | succ fuel ih =>
    obtain ⟨next, u, hstep, h⟩ := bind_ok.mp h
    have hn := owes_step (unwinding_ok.mp hstep) ho
    cases next with
    | go us => exact ih h hn
    | finish w =>
      cases h
      exact hn

theorem isSome_of_evalPop {v : Option Object} (h : evalPop s = .ok v t) : v.isSome := by
  rw [evalPop, popBy, report_ok, get_bind] at h
  obtain ⟨next, u, hnext, h⟩ := bind_ok.mp h
  obtain ⟨m, w, hm, hnext⟩ := bind_ok.mp hnext
  obtain ⟨o, stack, hs, hm⟩ := (yields_require .result).ok hm
  rw [onto_eq] at hnext
  cases hnext
  have hn : Owes (m.next w.halted []) := owes_supplied hm (.inl rfl) _
  generalize m.next w.halted [] = next at h hn
  cases next with
  | go us => exact owes_iterate patience h hn
  | finish w =>
    cases h
    exact hn

/-! ### Histories -/

/-- The machine as a program finds it, with no events noted. -/
def State.unnoted (s : State) : State := { s with events := [] }

theorem program_ok {p : List Instruction} {v : Option Object} {j : Journal} : ((Ran.program s p).run j).1 = ⟨.ok v, t⟩ ↔
      ∃ u, Ran.evaluate p s.unnoted = .ok v u ∧ t = { u with events := u.events ++ s.events } := by
  have h : ((Ran.program s p).run j).1 = match Ran.evaluate p s.unnoted with
      | .ok v u => ⟨.ok v, { u with events := u.events ++ s.events }⟩
      | .error e u => ⟨.error e, { u with events := u.events ++ s.events }⟩ := by
    cases he : Ran.evaluate p s.unnoted <;> unfold Ran.program Ran.on Ran.step <;> rw [← State.unnoted, he] <;> rfl
  rw [h]
  cases Ran.evaluate p s.unnoted <;> simp [eq_comm]

/-- A program run on a machine, and the same run on the machine with its stack empty. -/
structure Turn where
  code : List Instruction
  journal : Journal
  before : State
  value : Option Object
  after : State
  /-- Where the program comes to on an empty stack, before its value is taken. -/
  own : State
  ownValue : Option Object
  ownAfter : State
  ran : ((Ran.program before code).run journal).1 = ⟨.ok value, after⟩
  left : eval code (before.unnoted.withStack []) = .ok () own
  alone : ((Ran.program (before.withStack []) code).run journal).1 = ⟨.ok ownValue, ownAfter⟩

namespace Turn

variable (r : Turn)

theorem eval_eq : eval r.code r.before.unnoted = .ok () (r.own.above r.before.stack) :=
  framed_eval r.code r.before.stack _ _ _ r.left

theorem evalPop_own (h : r.own.stack ≠ []) :
    ∃ u, evalPop r.own = .ok r.ownValue u ∧ r.ownAfter = { u with events := u.events ++ r.before.events } := by
  obtain ⟨u, hu, ha⟩ := program_ok.mp r.alone
  exact ⟨u, (evaluate_eq_evalPop r.left h).symm.trans hu, ha⟩

theorem ownValue_of_empty (h : r.own.stack = []) : r.ownValue = none := by
  obtain ⟨u, hu, -⟩ := program_ok.mp r.alone
  have he : Ran.evaluate r.code (r.before.unnoted.withStack []) = .ok none r.own := by
    refine (bind_of_ok r.left).trans ?_
    show (if r.own.stack.isEmpty then Pure.pure none else evalPop : Step (Option Object)) r.own = _
    rw [if_pos (by simp [h])]
    rfl
  injection hu.symm.trans he

/-- Above what was left before, a program that leaves something itself is reported like alone. -/
theorem value_of_left (h : r.own.stack ≠ []) :
    r.value = r.ownValue ∧ r.after.stack = r.ownAfter.stack ++ r.before.stack := by
  obtain ⟨u, hu, ha⟩ := program_ok.mp r.ran
  obtain ⟨w, hw, hb⟩ := r.evalPop_own h
  have hs : (r.own.above r.before.stack).stack ≠ [] := by simp [State.above, State.atop, h]
  have he := (hu.symm.trans (evaluate_eq_evalPop r.eval_eq hs)).trans (framed_evalPop r.before.stack _ _ _ hw)
  injection he with hv hu
  subst hu
  exact ⟨hv, by rw [ha, hb]; rfl⟩

theorem value_of_empty (h : r.before.stack = []) : r.value = r.ownValue ∧ r.after = r.ownAfter := by
  have hs : r.before.withStack [] = r.before := by rw [← h]; rfl
  have hr := r.ran.symm.trans (hs ▸ r.alone)
  simpa using hr

/-- If no program of a history leaves anything when its value was taken, nothing is found by the next. -/
theorem before_stack {us : List Turn} {r : Turn} (hchain : (us ++ [r]).IsChain fun a b => b.before = a.after)
    (hfirst : ∀ u ∈ (us ++ [r]).head?, u.before.stack = []) (htidy : ∀ u ∈ us, u.ownAfter.stack = []) :
    r.before.stack = [] := by
  induction us with
  | nil => exact hfirst r rfl
  | cons u us ih =>
    have hu : u.after.stack = [] := by
      rw [(u.value_of_empty (hfirst u rfl)).2]
      exact htidy u mem_cons_self
    grind [isChain_cons]

/-- In a history of programs that begins on a machine with nothing on its stack, a program does above what
was left before it what it does alone. Alone, the value of the top it leaves is reported, and none exactly if
it leaves nothing. In the history the same is reported, unless the program leaves nothing where something
was left: then the value of that is. Nothing is found by a program if each one before it leaves nothing
alone once its value was taken. -/
theorem value_reported {us : List Turn} {r : Turn} (hchain : (us ++ [r]).IsChain fun a b => b.before = a.after)
    (hfirst : ∀ u ∈ (us ++ [r]).head?, u.before.stack = []) :
    eval r.code r.before.unnoted = .ok () (r.own.above r.before.stack) ∧
      (r.own.stack ≠ [] → ∃ u, evalPop r.own = .ok r.ownValue u) ∧ (r.ownValue = none ↔ r.own.stack = []) ∧
      (r.own.stack ≠ [] ∨ r.before.stack = [] →
        r.value = r.ownValue ∧ r.after.stack = r.ownAfter.stack ++ r.before.stack) ∧
      (r.own.stack = [] → r.before.stack ≠ [] →
        r.value ≠ none ∧ ∃ u, evalPop (r.own.withStack r.before.stack) = .ok r.value u ∧ r.after.stack = u.stack) ∧
      ((∀ u ∈ us, u.ownAfter.stack = []) → r.before.stack = []) := by
  refine ⟨r.eval_eq, fun ho => ?_, ⟨fun hv => ?_, r.ownValue_of_empty⟩, ?_, fun ho hb => ?_,
    before_stack hchain hfirst⟩
  · obtain ⟨u, hu, -⟩ := r.evalPop_own ho
    exact ⟨u, hu⟩
  · by_contra ho
    obtain ⟨u, hu, -⟩ := r.evalPop_own ho
    simpa [hv] using isSome_of_evalPop hu
  · rintro (ho | hb)
    · exact r.value_of_left ho
    · obtain ⟨hv, ha⟩ := r.value_of_empty hb
      exact ⟨hv, by simp [ha, hb]⟩
  · obtain ⟨u, hu, ha⟩ := program_ok.mp r.ran
    have hown : r.own.above r.before.stack = r.own.withStack r.before.stack := by
      simp [State.above, State.atop, State.withStack, ho]
    have he : eval r.code r.before.unnoted = .ok () (r.own.withStack r.before.stack) := hown ▸ r.eval_eq
    have hv := (evaluate_eq_evalPop he hb).symm.trans hu
    refine ⟨fun hn => ?_, u, hv, by rw [ha]⟩
    simpa [hn] using isSome_of_evalPop hv

def spareState (stack : List Object) : State :=
  { State.fresh 10 with
    classes := [(1, ⟨⟨1, [65]⟩, []⟩)], stack, declaring := some 1, made := 2, events := [.classMade [65]] }

def spareObject (n : Nat) : Object := .mk n (some ⟨1, [65]⟩) .plain []

/-- A program that leaves two objects. -/
def spare : Turn where
  code := [.declareClass 1 [65], .loadObject 1, .loadObject 1]
  journal := .empty
  before := .fresh 10
  value := some (spareObject 1)
  after := spareState [spareObject 0]
  own := spareState [spareObject 1, spareObject 0]
  ownValue := some (spareObject 1)
  ownAfter := spareState [spareObject 0]
  ran := rfl
  left := rfl
  alone := rfl

/-- A program that leaves nothing, run after it. -/
def idle : Turn where
  code := []
  journal := .empty
  before := spareState [spareObject 0]
  value := some (spareObject 0)
  after := spareState []
  own := (spareState []).unnoted
  ownValue := none
  ownAfter := spareState []
  ran := rfl
  left := rfl
  alone := rfl

/-- The object that the first program left is reported of the second. -/
theorem value_reported_spare : ([spare] ++ [idle]).IsChain (fun a b => b.before = a.after) ∧
    idle.own.stack = [] ∧ idle.value ≠ none ∧ spare.ownAfter.stack ≠ [] := by
  have hchain : ([spare] ++ [idle]).IsChain fun a b => b.before = a.after := isChain_pair.mpr rfl
  have hfirst : ∀ u ∈ ([spare] ++ [idle]).head?, u.before.stack = [] := by
    rintro _ ⟨⟩
    rfl
  obtain ⟨-, -, -, -, hleft, hclean⟩ := value_reported hchain hfirst
  exact ⟨hchain, rfl, (hleft rfl nofun).1, nofun⟩

end Turn

end Parlance.Machine
