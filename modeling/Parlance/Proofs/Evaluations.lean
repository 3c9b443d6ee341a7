import Parlance.Proofs.Contents
/-!
Evaluations one after the other on one machine. What steps keep holds at every moment of all of them.
-/
namespace Parlance.Machine

variable {α : Type} {s t : State} {Q : α → State → Prop} {E : Fault → State → Prop}

def noted : Fault → State → State
  | .panic p, s => { s with stack := [], calls := .none, events := .panicked p :: s.events }
  | _, s => s

theorem yields_report (x : Step α) : Yields (report x) s Q E ↔ Yields x s Q (fun e t => E e (noted e t)) := by
  simp only [Yields, report]
  cases x s with
  | ok => rfl
  | error e => cases e <;> rfl

def endState : EStateM.Result Fault State α → State
  | .ok _ t => t
  | .error _ t => t

theorem Yields.endState {x : Step α} {R : State → Prop} (h : Yields x s (fun _ => R) (fun _ => R)) :
    R (endState (x s)) := by grind [Yields, Machine.endState]

section

variable (P : Instruction → Prop)

/-- The tasks with which a machine begins an evaluation of code that is as `P` says, or of the value on top. -/
inductive Begins (s : State) : List Task → State → Prop where
  | eval {code} (h : ∀ i ∈ code, P i) : Begins s [.run code s.calls] { s with halted := false }
  | evalPop {ts t} (h : (require .result s.calls >>= Move.onto []) s = .ok (.go ts) t) : Begins s ts t

/-- The states of a machine between evaluations; its host may read what there is to tell. -/
inductive Rests (limit : Nat) : State → Prop where
  | fresh : Rests limit (.fresh limit)
  | eval {s code} (hs : Rests limit s) (h : ∀ i ∈ code, P i) : Rests limit (endState (eval code s))
  | evalPop {s : State} (hs : Rests limit s) : Rests limit (endState (evalPop s))
  | told {s : State} (hs : Rests limit s) (events : List Event) : Rests limit { s with events }

/-- The moments of evaluations, each by its tasks and its state. -/
inductive Works (limit : Nat) : List Task → State → Prop where
  | mk {s t u ts us} (hs : Rests P limit s) (hb : Begins P s ts t) (hr : Reaches ts t us u) : Works limit us u

end

theorem yields_begin : Yields (require .result s.calls >>= Move.onto []) s
    (fun next t => ∃ o stack m u, s.stack = o :: stack ∧ Supplied s.calls .result o (s.withStack stack) m u ∧
      next = m.next u.halted [] ∧ t = u.withCalls (m.nextCalls u.halted [] u.calls))
    (fun e t => (s.stack = [] ∧ e = emptied s.calls ∧ t = s) ∨
      ∃ o stack, s.stack = o :: stack ∧ e = .foreign ∧ t = s.withStack stack) := by
  rw [yields_bind]
  refine (yields_require .result).mono ?_ ?_
  · grind [yields_onto]
  · rintro e t (h | ⟨o, stack, hst, h⟩)
    · exact .inl h
    · cases h
      exact .inr ⟨o, stack, hst, rfl, rfl⟩

namespace Law

variable {L : Law} {P : Instruction → Prop} {limit : Nat}

theorem Holds.noted (hs : L.Holds s) (hnone : L.calls .none) (e : Fault) : L.Holds (noted e s) := by
  cases e with
  | panic => exact { hs with stack := nofun, calls := hnone }
  | _ => exact hs

theorem maxDepth_noted (e : Fault) : (noted e s).maxDepth = s.maxDepth := by
  cases e <;> rfl

theorem begun (hL : L.Kept s.maxDepth) (hs : L.Holds s) {next : Next}
    (h : (require .result s.calls >>= Move.onto []) s = .ok next t) :
    L.Holds t ∧ L.OnNext next ∧ t.maxDepth = s.maxDepth := by
  obtain ⟨o, stack, m, u, hst, hsup, rfl, rfl⟩ := yields_begin.ok h
  obtain ⟨hs', ho⟩ := hs.settles (.run [] .none) hst
  obtain ⟨hu, hm, hf⟩ := supplied hsup hL hs' ho True.intro hs.calls
  obtain ⟨made, below, rfl⟩ := hsup.frame
  refine ⟨moved hu hm (List.forall_mem_nil _) _, ?_, rfl⟩
  cases m with
  | ahead xs => exact List.forall_mem_append.mpr ⟨hm, nofun⟩
  | back => exact fun _ h => nomatch h
  | finish r => exact hf r rfl

variable (hL : L.Kept limit) (hnone : L.calls .none) (hP : ∀ i, P i → L.code i)
include hL hnone hP

theorem rests (h : Rests P limit s) : L.Holds s ∧ s.maxDepth = limit := by
  have hend {ts : List Task} {s : State} (hs : L.Holds s ∧ s.maxDepth = limit) (hts : ∀ x ∈ ts, L.OnTask x) :
      Yields (iterate step patience ts) s (fun _ t => L.Holds t ∧ t.maxDepth = limit)
        (fun e t => L.Holds (Machine.noted e t) ∧ (Machine.noted e t).maxDepth = limit) := by
    refine (iterated patience (hs.2 ▸ hL) hs.1 hts).mono (fun _ _ h => ⟨h.1, h.2.1.trans hs.2⟩) fun e t h => ?_
    exact ⟨h.1.noted hnone e, (maxDepth_noted e).trans (h.2.trans hs.2)⟩
  induction h with
  | fresh => exact ⟨⟨nofun, nofun, nofun, nofun, nofun, nofun, hnone⟩, rfl⟩
  | told _ _ ih => exact ⟨{ ih.1 with }, ih.2⟩
  | @eval s code _ h ih =>
    apply Yields.endState (R := fun t => L.Holds t ∧ t.maxDepth = limit)
    rw [Machine.eval, yields_bind, yields_modify, yields_bind, yields_get, yields_bind, yields_report]
    have hs : L.Holds { s with halted := false } ∧ s.maxDepth = limit := ⟨{ ih.1 with }, ih.2⟩
    exact hend hs (List.forall_mem_singleton.mpr ⟨fun i hi => hP i (h i hi), ih.1.calls⟩)
  | @evalPop s _ ih =>
    apply Yields.endState (R := fun t => L.Holds t ∧ t.maxDepth = limit)
    rw [Machine.evalPop, popBy, yields_report, yields_bind, yields_get, yields_bind]
    unfold Yields
    split
    · rename_i next t hbegin
      obtain ⟨ht, hnext, hmax⟩ := begun (ih.2.symm ▸ hL) ih.1 hbegin
      cases next with
      | go ts => exact hend ⟨ht, hmax.trans ih.2⟩ hnext
      | finish r => exact ⟨ht, hmax.trans ih.2⟩
    · rename_i e t hbegin
      obtain ⟨-, rfl, rfl⟩ | ⟨o, stack, hst, rfl, rfl⟩ := yields_begin.error hbegin
      · exact ⟨ih.1.noted hnone _, ih.2⟩
      · exact ⟨(ih.1.settles (.run [] .none) hst).1, ih.2⟩

theorem works {ts : List Task} (h : Works P limit ts s) : L.Holds s ∧ (∀ x ∈ ts, L.OnTask x) ∧ s.maxDepth = limit := by
  obtain ⟨hrest, hb, hr⟩ := h
  obtain ⟨hs, rfl⟩ := rests hL hnone hP hrest
  cases hb with
  | eval h =>
    have hreached := reached hr (L := L)
    exact hreached hL { hs with } (List.forall_mem_singleton.mpr ⟨fun i hi => hP i (h i hi), hs.calls⟩)
  | evalPop h =>
    obtain ⟨ht, hts, hmax⟩ := begun hL hs h
    obtain ⟨hu, hus, hmax'⟩ := reached hr (hmax ▸ hL) ht hts
    exact ⟨hu, hus, hmax'.trans hmax⟩

end Law

end Parlance.Machine
