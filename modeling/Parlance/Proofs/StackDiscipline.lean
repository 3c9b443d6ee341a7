import Parlance.Proofs.Activations
import Parlance.Proofs.Evaluations
/-!
The frame that lowering keeps is the stack that the machine has.
-/
namespace Parlance

namespace Machine

theorem eval_error {code : List Instruction} {s t : State} {e : Fault} (hs : s.halted = false)
    (h : eval code s = .error e t) :
    e = .unfinished ∨ ∃ us u v, Reaches [.run code s.calls] s us u ∧ step us u = .error e v := by
  have hflag : { s with halted := false } = s := by
    cases s
    cases hs
    rfl
  have hy : Yields (eval code) s (fun _ _ => True) (fun e _ => e = .unfinished ∨
      ∃ us u v, Reaches [.run code s.calls] s us u ∧ step us u = .error e v) := by
    rw [eval, yields_bind, yields_modify, hflag, yields_bind, yields_get, yields_bind, yields_report]
    refine (yields_iterate patience _).mono (fun _ _ _ => True.intro) ?_
    rintro e t ⟨us, u, v, hr, hend, -⟩
    exact hend.imp And.left fun hstep => ⟨us, u, v, hr, hstep⟩
  exact hy.error h

end Machine

namespace Lowering

open Machine (Calls Object Task Healthy Runs Reaches Running)

variable {p : Program} {f : Frame} {c code : List Instruction} {calls : Calls} {us : List Task} {w : Machine.State}
  {s t : State}

/-- Whatever the stack holds can be given to the names of the frame on it. -/
theorem exists_env (p : Program) (first : Nat) {st : List Object} (h : f.length ≤ st.length) :
    ∃ ρ : Env, ρ.Before p first ∧ Matches p ρ f st := by
  classical
  let ρ : Env := fun slot => if IsResult p first slot then none else (f.idxOf? slot).bind (st[·]?)
  refine ⟨ρ, fun slot hslot => if_pos hslot, h, fun {slot i} hi => ?_⟩
  have hlt : i < st.length := by
    have := (List.idxOf?_eq_some_iff.mp hi).1
    omega
  refine ⟨st[i], List.getElem?_eq_getElem hlt, ?_⟩
  grind [IsResult]

theorem Lowered.leaves (hp : p.Grown) (hd : Distinct p) {n : Node} {r : Slot}
    {k : List Instruction} {w' : Machine.State}
    (hin : (Part.value n).In p) (hl : Lowered p (.value n) f c (r :: f)) (hw : Healthy (contract p) w)
    (hrun : Runs us [.run (c ++ k) calls] w [.run k calls] w') (hw' : w'.halted = false) {ρ : Env}
    (hρ : ρ.Before p n.id) (hm : Matches p ρ f w.stack) :
    (∃ v, w'.stack = v :: w.stack) ∧ Matches p ρ (r :: f) w'.stack := by
  have hready : (Part.value n).Ready p ρ := by
    cases hin with
    | value hn hs => exact .value hn hs hρ
  rcases hl.follows hp hd hready hw hm hrun with ⟨x, hx, hrest⟩ | ⟨hlt, -⟩
  · obtain rfl := hrest.eq_of_same hw'
    exact ⟨hx.top, hx.slots⟩
  · exact absurd hlt (Nat.lt_irrefl _)

theorem running_fresh (hp : p.Grown) (hd : Distinct p) (h : Yields (whole p) s code t) (depth : Nat) :
    Running (contract p) .none [.run code .none] (.fresh depth) := by
  obtain ⟨k, rfl, hk⟩ := stream_whole hp h
  have hfresh : Healthy (contract p) (.fresh depth) := ⟨nofun, by simp [Machine.State.fresh], rfl⟩
  exact ⟨[], _, rfl, hfresh, hk.top hp hd (fun height => .halt height []) _⟩

theorem sees_of_reaches (hp : p.Grown) (hd : Distinct p) (h : Yields (whole p) s code t) {depth : Nat}
    (hreach : Reaches [.run code .none] (.fresh depth) (.run c calls :: us) w) :
    Sees p [.run code .none] (.fresh depth) c calls us w := by
  have hstart := running_fresh hp hd h depth
  have hbottom {c : List Instruction} {w : Machine.State}
      (hr : Reaches [.run code .none] (.fresh depth) [.run c .none] w) :
      Sees p [.run code .none] (.fresh depth) c .none [] w := by
    obtain ⟨k, rfl, hk⟩ := stream_whole hp h
    obtain ⟨-, -, -, hw, -⟩ := hstart.reaches (contract_kept hp hd) hr
    exact hk.sees hp hd hstart .refl hr.runs_nil hw.running
  exact (scoped_of_reaches hp hd hstart hbottom rfl rfl rfl hreach).sees hp hd hstart hbottom

/-- While code runs on a fresh machine, the stack is as the frames have it. -/
structure FollowsFrames (p : Program) (code : List Instruction) (depth : Nat) : Prop where
  /-- The code of an expression ends only with one value more than it found, as its frame has one slot more;
  what the names stand for is then still where the frame has them. -/
  leaves : ∀ {n : Node} {s t : State} {c : List Instruction}, p.Has n → n.shape.isExpression →
    Yields (expression p n) s c t → ∃ r, t.frame = r :: s.frame ∧
      ∀ {k : List Instruction} {calls : Calls} {us : List Task} {w w' : Machine.State},
        Reaches [.run code .none] (.fresh depth) (.run (c ++ k) calls :: us) w →
        s.frame.length ≤ w.stack.length → Runs us [.run (c ++ k) calls] w [.run k calls] w' →
        (∃ v, w'.stack = v :: w.stack) ∧
          ∀ ρ : Env, ρ.Before p n.id → Matches p ρ s.frame w.stack → Matches p ρ t.frame w'.stack
  /-- A local reads what its name stands for in the call or the lazy value that is being worked out. -/
  reads : ∀ {i : UInt16} {k : List Instruction} {calls : Calls} {us : List Task} {w : Machine.State},
    Reaches [.run code .none] (.fresh depth) (.run (.loadLocal i :: k) calls :: us) w →
    ∃ body x slot ρ v, Active p [.run code .none] (.fresh depth) body calls us x ∧
      Runs us [.run body calls] x.state [.run (.loadLocal i :: k) calls] w ∧
      Comes p calls x ⟨.load slot, ρ, w⟩ ∧ ρ slot = some v ∧ w.stack[i.toNat]? = some v
  /-- The machine is never short of values. -/
  enough : ∀ {e : Machine.Fault} {w : Machine.State},
    Machine.eval code (.fresh depth) = .error e w → e.isShortage = false

/-- Lowered code keeps the stack as the frames had it. -/
theorem whole_followsFrames {ss : List Source} {memo : Memo} {code : List Instruction}
    (hclean : ∀ s ∈ ss, Diagnostic.hasErrors (s.parse none).remarks = false)
    (hp : p = .ofDocuments (ss.map (·.parse none))) (hd : Distinct p)
    (hcode : (run (whole p) memo).code = .ok code) (depth : Nat) : FollowsFrames p code depth := by
  have hgrown : p.Grown := hp ▸ Program.grown_of_no_errors hclean
  have hyields : Yields (whole p) ⟨memo, [], []⟩ code (((whole p).run.run ⟨memo, [], []⟩).2) :=
    Prod.ext hcode rfl
  have hkept := contract_kept hgrown hd
  have hstart := running_fresh hgrown hd hyields depth
  refine ⟨fun {n s t c} hn hs hc => ?_, fun {i k calls us w} hreach => ?_, fun {e w} he => ?_⟩
  · have hin : (Part.value n).In p := .value hn hs
    have hl := lowered_expression hin hc
    obtain ⟨r, hr, -⟩ := grows_value (hl.grows hin)
    rw [hr] at hl
    refine ⟨r, hr, fun {k calls us w w'} hreach hheight hrun => ?_⟩
    obtain ⟨-, -, -, hw, -⟩ := hstart.reaches hkept hreach
    rw [← List.singleton_append] at hreach
    obtain ⟨-, -, -, hw', -⟩ := hstart.reaches hkept (hreach.runs hrun)
    obtain ⟨ρ, hρ, hm⟩ := exists_env p n.id hheight
    refine ⟨(hl.leaves hgrown hd hin hw hrun hw'.running hρ hm).1, fun ρ hρ hm => ?_⟩
    rw [hr]
    exact (hl.leaves hgrown hd hin hw hrun hw'.running hρ hm).2
  · rcases sees_of_reaches hgrown hd hyields hreach with hread | ⟨body, x, ha, hrun, slot, ρ, v, hcomes, hv⟩
    · cases hread _ rfl
    · exact ⟨body, x, slot, ρ, v, ha, hrun, hcomes, hv⟩
  · rcases Machine.eval_error rfl he with rfl | ⟨us, u, v, hreach, hstep⟩
    · rfl
    · have hgoes := (hstart.reaches hkept hreach).goes hkept
      rw [hstep] at hgoes
      exact hgoes

/-- Lazy values within each other that take a `let` and the receiver along. -/
def capturing : List Source :=
  [.ofString .module "test:pair.loa"
    "class Pair { of: Pair x -> Pair => x. with: Pair x -> Pair => let y = x. (self of: (y of: (self of: y))). }",
    .ofString .main "main:" "Pair with: Pair."]

def capturingProgram : Program := .ofDocuments (capturing.map (·.parse none))

theorem whole_followsFrames_capturing :
    (∀ s ∈ capturing, Diagnostic.hasErrors (s.parse none).remarks = false) ∧ Distinct capturingProgram ∧
    ∃ code, (run (whole capturingProgram) (.fresh capturingProgram)).code = .ok code ∧
      FollowsFrames capturingProgram code 100 := by
  have hclean : ∀ s ∈ capturing, Diagnostic.hasErrors (s.parse none).remarks = false := by decide +kernel
  have hd : Distinct capturingProgram := by
    unfold Distinct
    decide +kernel
  have hcode : (run (whole capturingProgram) (.fresh capturingProgram)).code.toOption.isSome = true := by
    decide +kernel
  cases h : (run (whole capturingProgram) (.fresh capturingProgram)).code with
  | error e =>
    rw [h] at hcode
    cases hcode
  | ok code => exact ⟨hclean, hd, code, rfl, whole_followsFrames hclean rfl hd h 100⟩

end Lowering

end Parlance
