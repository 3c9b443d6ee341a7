import Parlance.Proofs.Evaluations
import Parlance.Proofs.TaskSteps
/-!
The methods at work: never more than allowed, and those of the code that goes on after a call are the ones
from before.
-/
namespace Parlance.Machine

open List

variable {limit : Nat} {s t : State} {calls : Calls} {x : Task} {P : Instruction → Prop} {o : Object} {want : Want}
  {ts us : List Task} {p : Panic}

def Calls.Sound (limit : Nat) (c : Calls) : Prop := c.depth = c.frames.length ∧ c.depth ≤ limit

inductive Extends (s : State) (calls : Calls) : Calls → Prop where
  | same : Extends s calls calls
  | called (f : Frame) (h : calls.depth < s.maxDepth) : Extends s calls (calls.push f)
  | captured {cell : Nat} {body vs context} (h : s.cells[cell]? = some (.waiting body vs context)) :
    Extends s calls context

theorem Extends.unsettled {stack : List Object} {c : Calls}
    (h : Extends ((x.settles s o).withStack stack) calls c) : Extends s calls c := by
  cases h with
  | same => exact .same
  | called f h => exact .called f (by cases x <;> exact h)
  | captured h =>
    cases x with
    | run => exact .captured h
    | await cell => exact .captured ((State.cell_settled h).resolve_left nofun)

theorem Supplied.extends {m : Move} (h : Supplied calls want o s m t) : ∀ y ∈ m.tasks, Extends s calls y.calls := by
  induction h with
  | work _ hc =>
    exact forall_mem_cons.mpr ⟨.captured hc, forall_mem_singleton.mpr .same⟩
  | known => exact forall_mem_singleton.mpr .same
  | @operand _ o _ _ _ _ _ _ _ _ ih => exact fun y hy => Extends.unsettled (x := .run [] calls) (o := o) (ih y hy)
  | entered h => exact forall_mem_singleton.mpr (.called _ h.room)
  | _ => exact forall_mem_nil _

/-- The tasks below stay as they are, or the first of them go where the machine is halted. -/
structure Replaces (s : State) (x : Task) (ts new below us : List Task) : Prop where
  eq : us = new ++ below
  rest : below <:+ ts
  kept : new ≠ [] → below = ts
  calls : ∀ y ∈ new, Extends s x.calls y.calls

theorem Replaced.extends {new : List Task} (h : Replaced s x new t) (hx : x.calls = s.calls) :
    ∀ y ∈ new, Extends s x.calls y.calls := by
  cases h with
  | left => nofun
  | next | suspended => exact forall_mem_singleton.mpr .same
  | supplied _ _ h =>
    refine forall_mem_append.mpr ⟨fun y hy => hx ▸ (h.extends y hy).unsettled, ?_⟩
    cases x with
    | run => exact forall_mem_singleton.mpr .same
    | await => nofun

theorem Stepped.replaces (h : Stepped s x ts (.go us) t) (hx : x.calls = s.calls) :
    ∃ new below, Replaces s x ts new below us := by
  obtain ⟨new, hnew, ⟨xs, hcut, -⟩, -⟩ := h.replaced
  obtain ⟨ys, -, hts⟩ | ⟨ys, rfl, rfl⟩ := append_eq_append_iff.mp hcut
  · exact ⟨[], us, rfl, ⟨ys, hts.symm⟩, nofun, nofun⟩
  · exact ⟨ys, ts, rfl, suffix_refl _, fun _ => rfl, fun y hy => hnew.extends hx y (mem_append_right _ hy)⟩

/-- The frame of an accessor that a task calls: the value on top answers with one, and there is room for it. -/
inductive Accesses (s : State) (x : Task) : Frame → Prop where
  | mk {hash uri line character o stack c m} (hw : x.want? = some (.call hash uri line character))
    (hs : s.stack = o :: stack) (h : Answered s.calls s hash o c m) (hm : ∀ is, m.body ≠ .code is) :
    Accesses s x ⟨c.name, m.name, uri, line, character⟩

/-- The calls at work where a step fails: an accessor has a frame of its own there. -/
inductive Active (s : State) (x : Task) : Calls → Prop where
  | own (h : ∀ f, ¬ Accesses s x f) : Active s x s.calls
  | accessor {f} (h : Accesses s x f) : Active s x (s.calls.push f)

theorem Active.unique {c c' : Calls} (h : Active s x c) (h' : Active s x c') : c = c' := by
  cases h with
  | own h => cases h' with
    | own => rfl
    | accessor hf => exact absurd hf (h _)
  | accessor hf => cases h' with
    | own h => exact absurd hf (h _)
    | accessor hf' =>
      obtain ⟨hw, hs, ⟨hc, ⟨k, hk, hm⟩, -⟩, -⟩ := hf
      obtain ⟨hw', hs', ⟨hc', ⟨k', hk', hm'⟩, -⟩, -⟩ := hf'
      grind

theorem Unanswered.not_answered {hash : UInt64} {cause : Cause} (h : Unanswered calls s hash o cause) {c : ClassRef}
    {m : Method} : ¬ Answered calls s hash o c m := by
  rintro ⟨hc, ⟨k, hk, hm⟩, hroom⟩
  cases h <;> grind

theorem Refused.frames (h : Refused calls want o s (.panic p) t) :
    (p.frames = calls.frames.reverse ∧ ∀ hash uri line character c m, want = .call hash uri line character →
      ¬ Answered calls s hash o c m) ∨
    ∃ hash uri line character c m, want = .call hash uri line character ∧ Answered calls s hash o c m ∧
      (∀ is, m.body ≠ .code is) ∧ p.frames = (calls.push ⟨c.name, m.name, uri, line, character⟩).frames.reverse := by
  generalize he : Fault.panic p = e at h
  induction h with
  | foreign => cases he
  | raised | bare =>
    cases he
    exact .inl ⟨rfl, nofun⟩
  | unanswered h =>
    cases he
    refine .inl ⟨rfl, ?_⟩
    rintro _ _ _ _ c m ⟨⟩
    exact h.not_answered
  | unworkable h =>
    cases h <;> cases he <;> exact .inl ⟨rfl, nofun⟩
  | operand _ _ ih => grind
  | unset h | nothing h =>
    cases he
    exact .inr ⟨_, _, _, _, _, _, rfl, h, nofun, rfl⟩

theorem Stuck.frames (h : Stuck s x (.panic p) t) : ∃ c, Active s x c ∧ p.frames = c.frames.reverse := by
  have hown (hx : x.want? = none ∨ s.stack = []) : Active s x s.calls := by
    refine .own fun f hf => ?_
    obtain ⟨hw, hs, -, -⟩ := hf
    grind
  generalize he : Fault.panic p = e at h
  cases h with
  | short hi =>
    cases he
    exact ⟨_, hown (.inl (by obtain rfl | rfl := hi <;> rfl)), rfl⟩
  | undefined =>
    cases he
    exact ⟨_, hown (.inl rfl), rfl⟩
  | emptied hs =>
    cases he
    exact ⟨_, hown (.inr hs), rfl⟩
  | @unperformed i _ _ _ _ hi h =>
    have hwant {is : List Instruction} {calls : Calls} : (Task.run (i :: is) calls).want? = none := by
      cases i <;> first | rfl | cases hi
    cases h <;> cases he <;> exact ⟨_, hown (.inl hwant), rfl⟩
  | @refused _ want o stack _ _ hw hs h =>
    subst he
    have hsettled {hash : UInt64} {c : ClassRef} {m : Method} :
        Answered s.calls ((x.settles s o).withStack stack) hash o c m ↔ Answered s.calls s hash o c m := by
      constructor <;> rintro ⟨hc, hm, hroom⟩ <;> cases x <;> exact ⟨hc, hm, hroom⟩
    obtain ⟨h, hno⟩ | ⟨_, _, _, _, _, _, rfl, ha, hm, h⟩ := h.frames
    · refine ⟨_, .own fun f hf => ?_, h⟩
      obtain ⟨hw', hs', ha, -⟩ := hf
      cases hw.symm.trans hw'
      cases hs.symm.trans hs'
      exact hno _ _ _ _ _ _ rfl (hsettled.mpr ha)
    · exact ⟨_, .accessor ⟨hw, hs, hsettled.mp ha, hm⟩, h⟩

/-! ### Runs -/

/-- A panic is told where it came up: it has the calls at work there, and all but the stack is kept. -/
structure Told (p : Panic) (x : Task) (s t : State) : Prop where
  frames : ∃ c, Active s x c ∧ p.frames = c.frames.reverse
  calls : t.calls = .none
  stack : t.stack = []
  classes : t.classes = s.classes
  globals : t.globals = s.globals
  marks : t.marks = s.marks

theorem Stuck.told (h : Stuck s x (.panic p) t) (ts : List Task) : Told p x s (noted (.panic p) (unwound ts t)) := by
  obtain ⟨-, u, stack, hu, -, rfl⟩ := h.frame
  rw [unwound_eq]
  obtain rfl | ⟨o, -, rfl⟩ := hu
  · exact ⟨h.frames, rfl, rfl, rfl, rfl, rfl⟩
  · cases x <;> exact ⟨h.frames, rfl, rfl, rfl, rfl, rfl⟩

/-- How an evaluation fails that begins with certain tasks: what is at work before is so again, but a panic leaves
nothing at work. -/
inductive Fails (s : State) (begins : List Task → State → Prop) : Fault → State → Prop where
  | panic {us vs u v t x p} (hb : begins us u) (hr : Reaches us u (x :: vs) v) (h : Told p x v t) :
    Fails s begins (.panic p) t
  /-- There is no value to take. -/
  | empty {p : Panic} (hs : s.stack = []) (hp : p.frames = s.calls.frames.reverse) :
    Fails s begins (.panic p) (noted (.panic p) s)
  | other {e} {t : State} (he : ∀ p, e ≠ .panic p) (ht : t.calls = s.calls) : Fails s begins e t

theorem yields_run {begins : List Task → State → Prop} (fuel : Nat) {u : State} (hb : begins ts u)
    (hcalls : Stacked s.calls u.calls ts) :
    Yields (report (iterate step fuel ts)) u (fun _ t => t.calls = s.calls) (Fails s begins) := by
  rw [yields_report]
  refine (yields_iterate fuel ts).mono ?_ ?_
  · rintro q t ⟨us, v, hr, hstep⟩
    exact step_stacked hstep (hr.stacked hcalls)
  · rintro e t ⟨us, v, w, hr, hend, rfl⟩
    have hafter : (unwound us w).calls = s.calls := by
      rw [unwound_eq, (hr.stacked hcalls).getLast?]
      rfl
    obtain ⟨rfl, -⟩ | hstep := hend
    · exact .other nofun hafter
    · obtain ⟨x, xs, rfl, h⟩ := step_error hstep
      cases e with
      | panic p => exact .panic hb hr (h.told _)
      | _ => exact .other nofun hafter

theorem yields_eval (code : List Instruction) (s : State) : Yields (eval code) s (fun _ t => t.calls = s.calls)
    (Fails s fun ts u => ts = [.run code s.calls] ∧ u = { s with halted := false }) := by
  rw [eval, yields_bind, yields_modify, yields_bind, yields_get, yields_bind]
  have hrun : Yields (report (iterate step patience [.run code s.calls])) { s with halted := false }
      (fun _ t => t.calls = s.calls)
      (Fails s fun ts u => ts = [.run code s.calls] ∧ u = { s with halted := false }) :=
    yields_run patience ⟨rfl, rfl⟩ (.bottom code)
  exact hrun

theorem yields_evalPop (s : State) : Yields evalPop s (fun _ t => t.calls = s.calls)
    (Fails s fun ts u => (require .result s.calls >>= Move.onto []) s = .ok (.go ts) u) := by
  rw [evalPop, popBy, yields_report, yields_bind, yields_get, yields_bind]
  unfold Yields
  split
  · rename_i next u hbegin
    obtain ⟨o, stack, m, w, -, hsup, rfl, rfl⟩ := yields_begin.ok hbegin
    have hstacked : (m.next w.halted []).Stacked s.calls (m.nextCalls w.halted [] w.calls) :=
      hsup.stacked rfl (.inl ⟨rfl, rfl, rfl⟩) _
    generalize m.next w.halted [] = next at hbegin hstacked
    cases next with
    | go ts => exact (yields_report _).mp (yields_run patience hbegin hstacked)
    | finish r => exact hstacked
  · rename_i e u hbegin
    obtain ⟨hs, rfl, rfl⟩ | ⟨o, stack, -, rfl, rfl⟩ := yields_begin.error hbegin
    · exact .empty hs rfl
    · exact .other (by rintro p ⟨⟩) rfl

theorem Fails.idle {begins : List Task → State → Prop} {e : Fault} (h : Fails s begins e t) (hs : s.calls = .none) :
    t.calls = .none := by
  cases h with
  | panic _ _ h => exact h.calls
  | empty => rfl
  | other _ h => exact h.trans hs

theorem Rests.idle (h : Rests P limit s) : s.calls = .none := by
  induction h with
  | fresh => rfl
  | told _ _ ih => exact ih
  | eval _ _ ih =>
    exact Yields.endState ((yields_eval _ _).mono (fun _ _ h => h.trans ih) fun _ _ h => h.idle ih)
  | evalPop _ ih =>
    exact Yields.endState ((yields_evalPop _).mono (fun _ _ h => h.trans ih) fun _ _ h => h.idle ih)

theorem Works.stacked (h : Works P limit ts s) : Stacked .none s.calls ts := by
  obtain ⟨hrest, hb, hr⟩ := h
  refine hr.stacked ?_
  have hidle := hrest.idle
  cases hb with
  | eval =>
    rw [hidle]
    exact .bottom _
  | evalPop h =>
    obtain ⟨o, stack, m, w, -, hsup, hnext, rfl⟩ := yields_begin.ok h
    have hstacked : (m.next w.halted []).Stacked .none (m.nextCalls w.halted [] w.calls) :=
      hsup.stacked rfl (.inl ⟨rfl, rfl, hidle⟩) _
    rw [← hnext] at hstacked
    exact hstacked

end Parlance.Machine
