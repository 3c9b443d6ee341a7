import Parlance.Proofs.MachineSteps
/-!
How high the stack is while code runs. Code that keeps to a contract never finds too few values on it.
-/
namespace Parlance.Machine

open List

variable {s t : State} {K : List Object → Prop} {want : Want} {below st vs : List Object} {rest ts us : List Task}
  {calls : Calls} {hash : UInt64} {o : Object} {body c k' : List Instruction} {i : Instruction} {h h' : Nat}
  {r : EStateM.Result Fault State Next} {x : Task} {m : Method}

/-- What is known of the code that may be run. -/
structure Contract where
  arity : UInt64 → Nat
  method : UInt64 → List Instruction → Prop
  lazy : Nat → List Instruction → Prop

/-- How an instruction changes the height of the stack. Nothing comes after a panic. -/
inductive Does (C : Contract) : Instruction → Nat → Nat → Prop where
  | load {i : Instruction} (hi : loads i) (h : Nat) : Does C i h (h + 1)
  | loadLocal {k : UInt16} {h} (hk : k.toNat < h) : Does C (.loadLocal k) h (h + 1)
  | dropLocal {k : UInt16} {h} (hk : k.toNat ≤ h) : Does C (.dropLocal k) (h + 1) h
  | callMethod (hash : UInt64) (uri : Bytes) (line character : UInt32) (h : Nat) :
    Does C (.callMethod hash uri line character) (C.arity hash + 1 + h) (h + 1)
  | callNative (n : Native) (h : Nat) : Does C (.callNative n) (h + 2) (h + 1)
  | loadLazy {k : UInt16} {body} (hb : C.lazy k.toNat body) (h : Nat) : Does C (.loadLazy k body) (k.toNat + h) (h + 1)
  | panic (h h' : Nat) : Does C .panic (h + 1) h'

/-- Code that leaves one value in the place of all that are its own. -/
inductive Ends (C : Contract) : Nat → List Instruction → Prop where
  | done : Ends C 1 []
  | return_ (n : UInt16) : Ends C (n.toNat + 1) [.return_ n]
  | returnLazy (n : UInt16) : Ends C (n.toNat + 1) [.returnLazy n]
  | next {i is h h'} (hi : Does C i h h') (his : Ends C h' is) : Ends C h (i :: is)

/-- The code of methods and lazy values ends as it should. -/
structure Contract.Kept (C : Contract) : Prop where
  method : ∀ {hash : UInt64} {is : List Instruction}, C.method hash is → Ends C (C.arity hash + 1) is
  lazy : ∀ {n : Nat} {body : List Instruction}, C.lazy n body → Ends C n body

def Contract.Suits (C : Contract) (hash : UInt64) : Body → Prop
  | .code is => C.method hash is
  | .getter .. => C.arity hash = 0
  | .setter _ => C.arity hash = 1

def Contract.Holds (C : Contract) : Cell → Prop
  | .waiting body captured _ => C.lazy captured.length body
  | .done _ => True

/-- A machine that knows no code but that of the contract. -/
structure Healthy (C : Contract) (s : State) : Prop where
  methods : ∀ c ∈ s.classes, ∀ m ∈ c.2.methods, C.Suits m.1 m.2.body
  cells : ∀ (i : Nat) (c : Cell), s.cells[i]? = some c → C.Holds c
  running : s.halted = false

theorem Healthy.congr {C : Contract} (h : Healthy C s) (hc : t.classes = s.classes)
    (hs : t.cells = s.cells) (hh : t.halted = s.halted) : Healthy C t :=
  ⟨hc ▸ h.methods, hs ▸ h.cells, hh.trans h.running⟩

/-- What has to lie under a value that is wanted, so that `K` holds of what is there in the end. -/
def Wanted (C : Contract) (K : List Object → Prop) : Want → List Object → Prop
  | .panic, _ => True
  | .call hash _ _ _, st =>
    ∃ args below, st = args ++ below ∧ args.length = C.arity hash ∧ ∀ v, K (v :: below)
  | .receiver _, st => ∃ o below, st = o :: below ∧ ∀ v, K (v :: below)
  | .operand _ _, st => ∀ v, K (v :: st)
  | .result, _ => False

/-- Tasks that find on the stack what they need, and after which `Q` holds of it. -/
def Safe (C : Contract) (Q : List Object → Prop) : List Task → List Object → Prop
  | [], st => Q st
  | .run code _ :: ts, st =>
    ∃ vs below, st = vs ++ below ∧ Ends C vs.length code ∧ ∀ v, Safe C Q ts (v :: below)
  | .await _ want _ :: ts, st => ∃ v below, st = v :: below ∧ Wanted C (Safe C Q ts) want below

variable {C : Contract} {Q : List Object → Prop} {Q' : List Object → Prop} {id : UInt64} {u : State} {y : Task}
  {k : List Instruction}

theorem Wanted.mono {K' : List Object → Prop} (hK : ∀ st, K st → K' st) (h : Wanted C K want st) :
    Wanted C K' want st := by
  cases want with
  | panic => exact h
  | call hash uri line character =>
    obtain ⟨args, below, hst, hargs, h⟩ := h
    exact ⟨args, below, hst, hargs, fun v => hK _ (h v)⟩
  | receiver n =>
    obtain ⟨o, below, hst, h⟩ := h
    exact ⟨o, below, hst, fun v => hK _ (h v)⟩
  | operand n receiver => exact fun v => hK _ (h v)
  | result => exact h

theorem Safe.append (hQ : ∀ st, Q st → Safe C Q' us st) (h : Safe C Q ts st) : Safe C Q' (ts ++ us) st := by
  induction ts generalizing st with
  | nil => exact hQ st h
  | cons t ts ih =>
    cases t with
    | run code calls =>
      obtain ⟨vs, below, hst, he, h⟩ := h
      exact ⟨vs, below, hst, he, fun v => ih (h v)⟩
    | await cell want calls =>
      obtain ⟨v, below, hst, hw⟩ := h
      exact ⟨v, below, hst, hw.mono fun _ hs => ih hs⟩

theorem Safe.mono (hQ : ∀ st, Q st → Q' st) (h : Safe C Q ts st) : Safe C Q' ts st := by
  have hs : Safe C Q' (ts ++ []) st := h.append hQ
  rwa [append_nil] at hs

/-! ### One step -/

theorem Move.next_of_running (hne : rest ≠ []) {m : Move} (hm : ∀ r, m ≠ .finish r) :
    m.next false rest = .go (m.tasks ++ rest) := by
  cases m with
  | ahead ts => rfl
  | back =>
    cases rest with
    | nil => contradiction
    | cons t rest => cases t <;> rfl
  | finish r => exact absurd rfl (hm r)

theorem Healthy.method (h : Healthy C s) {k : Class}
    (hk : s.classes.lookup id = some k) (hm : k.method? hash = some m) : C.Suits hash m.body :=
  h.methods _ (mem_of_lookup hk) _ (mem_of_lookup hm)

theorem Healthy.answered (h : Healthy C s) {c : ClassRef} (hm : Answered calls s hash o c m) : C.Suits hash m.body := by
  obtain ⟨k, hk, hm⟩ := hm.method
  exact h.method hk hm

theorem Healthy.suspend (hs : Healthy C s) (hb : C.lazy vs.length body) (below : List Object) (calls : Calls) :
    Healthy C (s.suspend body vs below calls) := by
  refine ⟨hs.methods, fun j c hc => ?_, hs.running⟩
  rcases State.cell_suspend hc with ⟨-, rfl⟩ | hc
  · show C.lazy _ _
    rw [length_reverse]
    exact hb
  · exact hs.cells j c hc

theorem Healthy.settled (hs : Healthy C s) (cell : Nat) (v : Object) : Healthy C (s.settled cell v) := by
  refine ⟨hs.methods, fun j c hc => ?_, hs.running⟩
  rcases State.cell_settled hc with rfl | hc
  · exact True.intro
  · exact hs.cells j c hc

theorem Supplied.safe (hC : C.Kept) {m : Move} (h : Supplied calls want o s m t) (hs : Healthy C s)
    (hw : Wanted C K want s.stack) : Healthy C t ∧ (∀ r, m ≠ .finish r) ∧ Safe C K m.tasks t.stack := by
  induction h with
  | @work want o s cell body captured context ho hc =>
    refine ⟨hs.congr rfl rfl rfl, nofun, captured.reverse, s.stack, rfl, ?_, fun v => ?_⟩
    · rw [length_reverse]
      exact hC.lazy (hs.cells _ _ hc)
    · exact ⟨v, s.stack, rfl, hw⟩
  | @known want o v s cell ho hc => exact ⟨hs.congr rfl rfl rfl, nofun, v, s.stack, rfl, hw⟩
  | operand _ hst _ ih =>
    obtain ⟨q, below, hq, hK⟩ := hw
    obtain ⟨rfl, rfl⟩ := List.cons.inj (hst.symm.trans hq)
    exact ih (hs.congr rfl rfl rfl) hK
  | computed => exact ⟨hs.congr rfl rfl rfl, nofun, hw _⟩
  | @entered _ _ _ _ _ o _ _ _ h =>
    obtain ⟨args, below, hst, hargs, hK⟩ := hw
    refine ⟨hs.congr rfl rfl rfl, nofun, o :: args, below, ?_, ?_, hK⟩
    · rw [State.stack_withStack, hst]
      rfl
    · rw [length_cons, hargs]
      exact hC.method (hs.answered h)
  | @got _ _ _ _ _ _ _ v _ _ _ h =>
    obtain ⟨args, below, hst, hargs, hK⟩ := hw
    obtain rfl := eq_nil_of_length_eq_zero (hargs.trans (hs.answered h))
    refine ⟨hs.congr rfl rfl rfl, nofun, ?_⟩
    rw [State.stack_withStack, hst]
    exact hK v
  | put h hst' =>
    obtain ⟨args, below, hst, hargs, hK⟩ := hw
    obtain ⟨a, rfl⟩ := length_eq_one_iff.mp (hargs.trans (hs.answered h))
    obtain ⟨rfl, rfl⟩ := List.cons.inj (hst'.symm.trans hst)
    exact ⟨hs.congr rfl rfl rfl, nofun, hK _⟩
  | result => exact hw.elim

theorem Refused.not_shortage
    {e : Fault} (h : Refused calls want o s e t) (hs : Healthy C s) (hw : Wanted C K want s.stack) :
    e.isShortage = false := by
  induction h with
  | bare hnil =>
    obtain ⟨o, below, hst, -⟩ := hw
    cases hnil.symm.trans hst
  | operand hst _ ih =>
    obtain ⟨q, below, hq, hK⟩ := hw
    obtain ⟨rfl, rfl⟩ := List.cons.inj (hst.symm.trans hq)
    exact ih (hs.congr rfl rfl rfl) hK
  | nothing h hnil =>
    obtain ⟨args, below, hst, hargs, -⟩ := hw
    obtain ⟨a, rfl⟩ := length_eq_one_iff.mp (hargs.trans (hs.answered h))
    cases hnil.symm.trans hst
  | unworkable h | unanswered h => cases h <;> rfl
  | foreign | raised | unset => rfl

/-- What a step on these tasks leaves: the tasks `rest` and safe ones before them. -/
def Leads (C : Contract) (Q : List Object → Prop) (rest : List Task) : EStateM.Result Fault State Next → Prop
  | .ok next t => ∃ ts, next = .go (ts ++ rest) ∧ Healthy C t ∧ Safe C Q ts t.stack
  | .error e _ => e.isShortage = false

theorem leads_iff {x : Step Next} : Leads C Q rest (x s) ↔ Yields x s
    (fun next t => ∃ ts, next = .go (ts ++ rest) ∧ Healthy C t ∧ Safe C Q ts t.stack)
    fun e _ => e.isShortage = false := by
  unfold Yields
  cases x s <;> rfl

theorem leads_require (hC : C.Kept) (hne : rest ≠ []) (hs : Healthy C s)
    (hst : s.stack = o :: below) (hw : Wanted C K want below) :
    Leads C K rest ((require want calls >>= Move.onto rest) s) := by
  have hs' : Healthy C (s.withStack below) := hs.congr rfl rfl rfl
  rw [leads_iff, yields_bind]
  refine (yields_require want).mono ?_ ?_
  · rintro m t ⟨p, stack, hp, h⟩
    obtain ⟨rfl, rfl⟩ := List.cons.inj (hst.symm.trans hp)
    obtain ⟨ht, hm, hsafe⟩ := h.safe hC hs' hw
    rw [yields_onto, ht.running, Move.next_of_running hne hm]
    exact ⟨m.tasks, rfl, ht.congr rfl rfl rfl, hsafe⟩
  · rintro e t (⟨hnil, -⟩ | ⟨p, stack, hp, h⟩)
    · cases hst.symm.trans hnil
    · obtain ⟨rfl, rfl⟩ := List.cons.inj (hst.symm.trans hp)
      exact h.not_shortage hs' hw

/-- An instruction that wants a value finds it, with what else it takes. -/
theorem Does.wanted (hd : Does C i h h')
    (hst : st = vs ++ below) (hl : vs.length = h) (is : List Instruction) (calls : Calls)
    (hw : (Task.run (i :: is) calls).want? = some want) : ∃ o stack, st = o :: stack ∧
      Wanted C (fun st => ∃ vs', st = vs' ++ below ∧ vs'.length = h') want stack := by
  cases hd with
  | callMethod hash uri line character k =>
    cases hw
    obtain ⟨o, vs, rfl⟩ := exists_cons_of_length_eq_add_one (show vs.length = C.arity hash + k + 1 by omega)
    rw [length_cons] at hl
    refine ⟨o, vs ++ below, hst, vs.take (C.arity hash), vs.drop (C.arity hash) ++ below, ?_, ?_, fun v =>
      ⟨v :: vs.drop (C.arity hash), rfl, ?_⟩⟩
    · rw [← append_assoc, take_append_drop]
    · rw [length_take]
      omega
    · rw [length_cons, length_drop]
      omega
  | callNative n k =>
    cases hw
    obtain ⟨o, vs, rfl⟩ := exists_cons_of_length_eq_add_one (show vs.length = k + 1 + 1 by omega)
    obtain ⟨p, vs, rfl⟩ := exists_cons_of_length_eq_add_one (show vs.length = k + 1 by simpa using hl)
    exact ⟨o, p :: (vs ++ below), hst, p, vs ++ below, rfl, fun v => ⟨v :: vs, rfl, by simpa using hl⟩⟩
  | panic k =>
    cases hw
    obtain ⟨o, vs, rfl⟩ := exists_cons_of_length_eq_add_one hl
    exact ⟨o, vs ++ below, hst, True.intro⟩
  | load hi => cases i <;> cases hi <;> cases hw
  | _ => cases hw

/-- An instruction changes the height as it says; a call may take tasks of its own to do so. -/
theorem Does.leads (hC : C.Kept) (hd : Does C i h h')
    (hs : Healthy C s) (hst : s.stack = vs ++ below) (hl : vs.length = h)
    (is : List Instruction) (calls : Calls) (rest : List Task) :
    Leads C (fun st => ∃ vs', st = vs' ++ below ∧ vs'.length = h') (.run is calls :: rest)
      (step (.run (i :: is) calls :: rest) s) := by
  cases hd with
  | load hi =>
    rw [step_plain (isPlain_of_loads hi)]
    cases hp : perform s.calls i s with
    | error e t =>
      rw [bind_of_error hp]
      exact (perform_load hi s.calls s).error hp
    | ok u t =>
      obtain ⟨v, n, rfl⟩ := (perform_load hi s.calls s).ok hp
      rw [bind_of_ok hp]
      refine ⟨[], rfl, hs.congr rfl rfl rfl, v :: vs, ?_, by simp [hl]⟩
      simp [hst]
  | @loadLocal k _ hk =>
    obtain ⟨o, hget⟩ : ∃ o, s.stack[k.toNat]? = some o := by simp_all [getElem?_append_left]
    rw [step_of_perform rfl is calls rest (perform_loadLocal s.calls hget)]
    refine ⟨[], rfl, hs.congr rfl rfl rfl, o :: vs, ?_, by simp [hl]⟩
    simp [hst]
  | @dropLocal k _ hk =>
    have hlt : k.toNat < s.stack.length := by
      rw [hst, length_append]
      omega
    rw [step_of_perform rfl is calls rest (perform_dropLocal s.calls hlt)]
    refine ⟨[], rfl, hs.congr rfl rfl rfl, vs.eraseIdx k.toNat, ?_, ?_⟩
    · grind [State.stack_withStack]
    · rw [length_eraseIdx_of_lt (by omega)]
      omega
  | callMethod hash uri line character k =>
    obtain ⟨o, stack, hst', hw⟩ := Does.wanted (.callMethod hash uri line character k) hst hl is calls rfl
    exact leads_require hC (by simp) hs hst' hw
  | callNative n k =>
    obtain ⟨o, stack, hst', hw⟩ := Does.wanted (.callNative n k) hst hl is calls rfl
    exact leads_require hC (by simp) hs hst' hw
  | @loadLazy k body hb m =>
    have hcut : s.stack = vs.take k.toNat ++ (vs.drop k.toNat ++ below) := by
      rw [← append_assoc, take_append_drop]
      exact hst
    have hlen : (vs.take k.toNat).length = k.toNat := by
      rw [length_take]
      omega
    rw [step_of_perform rfl is calls rest (perform_loadLazy body s.calls hcut hlen)]
    refine ⟨[], rfl, hs.suspend (by rw [hlen]; exact hb) _ s.calls, _ :: vs.drop k.toNat, rfl, ?_⟩
    rw [length_cons, length_drop]
    omega
  | panic k =>
    obtain ⟨o, vs, rfl⟩ := exists_cons_of_length_eq_add_one hl
    exact leads_require hC (by simp) hs hst True.intro

theorem Leads.append {u : List Task} (h : Leads C (Safe C Q u) (u ++ rest) r) : Leads C Q rest r := by
  cases r with
  | error e t => exact h
  | ok next t =>
    obtain ⟨ts, rfl, ht, hsafe⟩ := h
    exact ⟨ts ++ u, by rw [append_assoc], ht, hsafe.append fun _ h => h⟩

theorem Leads.mono (hQ : ∀ st, Q st → Q' st) (h : Leads C Q rest r) : Leads C Q' rest r := by
  cases r with
  | error e t => exact h
  | ok next t =>
    obtain ⟨ts, hnext, ht, hsafe⟩ := h
    exact ⟨ts, hnext, ht, hsafe.mono hQ⟩

theorem leads_leave (hne : ts ≠ []) (hs : Healthy C s) (hQ : Q s.stack) : Leads C Q ts (leave ts s) := by
  have hleft : left false ts = .go ts := Move.next_of_running hne (m := .back) nofun
  rw [leave_eq, hs.running, hleft]
  exact ⟨[], rfl, hs.congr rfl rfl rfl, hQ⟩

theorem leads_return (hne : ts ≠ []) (n : Nat) (calls : Calls) (hs : Healthy C s) (hst : s.stack = vs ++ below)
    (hl : vs.length = n + 1) (hQ : ∀ v, Q (v :: below)) :
    Leads C Q ts ((leaveValue calls n >>= fun _ => leave ts) s) := by
  obtain ⟨v, vs, rfl⟩ := exists_cons_of_length_eq_add_one hl
  rw [length_cons] at hl
  cases h : leaveValue calls n s with
  | error e t =>
    obtain ⟨hnil, -⟩ | ⟨o, stack, hst', hlt, -⟩ := yields_leaveValue.error h
    · cases hst.symm.trans hnil
    · grind
  | ok u t =>
    obtain ⟨o, stack, hst', -, rfl⟩ := yields_leaveValue.ok h
    obtain ⟨rfl, rfl⟩ := List.cons.inj (hst.symm.trans hst')
    rw [bind_of_ok h]
    refine leads_leave hne (hs.congr rfl rfl rfl) ?_
    simp_all

/-- A step on safe tasks leads to safe tasks. -/
theorem Safe.leads (hC : C.Kept) {t : Task} (hne : rest ≠ []) (hs : Healthy C s) (h : Safe C Q (t :: ts) s.stack) :
    Leads C Q rest (step (t :: (ts ++ rest)) s) := by
  have hne' : ts ++ rest ≠ [] := by simp [hne]
  cases t with
  | await cell want calls =>
    obtain ⟨v, below, hst, hw⟩ := h
    have hstep : step (.await cell want calls :: (ts ++ rest)) s =
        (require want s.calls >>= Move.onto (ts ++ rest)) (s.settled cell v) := by
      show (settle cell want s.calls >>= Move.onto (ts ++ rest)) s = _
      simp only [Bind.bind, EStateM.bind, settle_cons hst]
    rw [hstep]
    exact (leads_require hC hne' (hs.settled cell v) hst hw).append
  | run code calls =>
    obtain ⟨vs, below, hst, he, hK⟩ := h
    generalize hh : vs.length = h at he
    cases he with
    | done =>
      obtain ⟨v, rfl⟩ := length_eq_one_iff.mp hh
      refine (leads_leave hne' hs ?_).append
      rw [hst]
      exact hK v
    | return_ n => exact (leads_return hne' n.toNat s.calls hs hst hh hK).append
    | returnLazy n => exact (leads_return hne' n.toNat s.calls hs hst hh hK).append
    | next hi his =>
      refine Leads.append (u := .run _ calls :: ts) ((hi.leads hC hs hst hh _ calls (ts ++ rest)).mono ?_)
      rintro st ⟨vs', rfl, hl⟩
      exact ⟨vs', below, rfl, hl ▸ his, hK⟩

/-! ### Runs -/

inductive Runs (rest : List Task) : List Task → State → List Task → State → Prop where
  | refl (ts : List Task) (s : State) : Runs rest ts s ts s
  | step {t ts us vs s u w} (hstep : Machine.step (t :: (ts ++ rest)) s = .ok (.go (us ++ rest)) u)
    (h : Runs rest us u vs w) : Runs rest (t :: ts) s vs w

theorem Runs.trans {vs : List Task} (h : Runs rest ts s us t) (h' : Runs rest us t vs u) : Runs rest ts s vs u := by
  induction h with
  | refl => exact h'
  | step hstep _ ih => exact .step hstep (ih h')

theorem Runs.split (hC : C.Kept) {xs : List Task} (h : Runs rest (xs ++ [.run k' calls]) s [x] t) (hs : Healthy C s)
    (hsafe : Safe C Q xs s.stack) :
    ∃ w, Healthy C w ∧ Q w.stack ∧ Runs rest (xs ++ [.run k' calls]) s [.run k' calls] w ∧
      Runs rest [.run k' calls] w [x] t := by
  generalize hts : xs ++ [.run k' calls] = ts at h
  generalize hus : [x] = us at h
  induction h generalizing xs with
  | refl ts s =>
    subst hus
    obtain ⟨rfl, hk⟩ := append_eq_singleton_iff.mp hts |>.resolve_right (by simp)
    rw [List.cons.inj hk |>.1]
    exact ⟨s, hs, hsafe, .refl _ s, .refl _ s⟩
  | @step t ts us vs s u w hstep h ih =>
    cases xs with
    | nil =>
      obtain ⟨rfl, rfl⟩ := List.cons.inj hts
      exact ⟨s, hs, hsafe, .refl _ s, .step hstep (hus ▸ h)⟩
    | cons y xs =>
      rw [cons_append] at hts
      obtain ⟨rfl, rfl⟩ := List.cons.inj hts
      have hleads := hsafe.leads hC (cons_ne_nil (.run k' calls) rest) hs
      have htasks : xs ++ .run k' calls :: rest = xs ++ [.run k' calls] ++ rest := by simp
      rw [htasks, hstep] at hleads
      obtain ⟨ys, hys, hu, hsafe⟩ := hleads
      obtain rfl : us = ys ++ [.run k' calls] :=
        append_cancel_right (Next.go.inj hys |>.trans (by simp))
      obtain ⟨v, hv, hQ, hfirst, hrest⟩ := ih hu hsafe rfl hus
      exact ⟨v, hv, hQ, .step hstep hfirst, hrest⟩

theorem Runs.start (h : Runs rest [y] s [x] t) : (x = y ∧ t = s) ∨
      ∃ us u, Machine.step (y :: rest) s = .ok (.go (us ++ rest)) u ∧ Runs rest us u [x] t := by
  generalize hts : [y] = ts at h
  generalize hus : [x] = vs at h
  cases h with
  | refl => grind
  | @step z zs us _ _ u _ hstep h => grind

theorem Leads.runs (hC : C.Kept) (hl : Leads C Q (.run k' calls :: rest) (.ok (.go (us ++ rest)) u))
    (h : Runs rest us u [x] t) (hstep : Machine.step (y :: rest) s = .ok (.go (us ++ rest)) u) :
    ∃ w, Healthy C w ∧ Q w.stack ∧ Runs rest [y] s [.run k' calls] w ∧ Runs rest [.run k' calls] w [x] t := by
  obtain ⟨zs, hzs, hu, hsafe⟩ := hl
  obtain rfl : us = zs ++ [.run k' calls] :=
    append_cancel_right (Next.go.inj hzs |>.trans (by simp))
  obtain ⟨w, hw, hQ, hfirst, hrest⟩ := h.split hC hu hsafe
  exact ⟨w, hw, hQ, .step hstep hfirst, hrest⟩

theorem Does.runs (hC : C.Kept) (hd : Does C i h h') (hr : Runs rest [.run (i :: k') calls] s [x] t) (hs : Healthy C s)
    (hst : s.stack = vs ++ below) (hl : vs.length = h) : (x = .run (i :: k') calls ∧ t = s) ∨
      ∃ w vs', Healthy C w ∧ w.stack = vs' ++ below ∧ vs'.length = h' ∧
        Runs rest [.run (i :: k') calls] s [.run k' calls] w ∧ Runs rest [.run k' calls] w [x] t := by
  rcases hr.start with hstart | ⟨us, u, hstep, h⟩
  · exact .inl hstart
  · have hleads := hd.leads hC hs hst hl k' calls rest
    rw [hstep] at hleads
    obtain ⟨w, hw, ⟨vs', hst', hl'⟩, hfirst, hrest⟩ := hleads.runs hC h hstep
    exact .inr ⟨w, vs', hw, hst', hl', hfirst, hrest⟩

theorem runs_of_perform (hi : isPlain i) {w : State} (hr : Runs rest [.run (i :: k') calls] s [x] t)
    (hp : perform s.calls i s = .ok () w) : (x = .run (i :: k') calls ∧ t = s) ∨ Runs rest [.run k' calls] w [x] t := by
  rcases hr.start with hstart | ⟨us, u, hstep, h⟩
  · exact .inl hstart
  · rw [step_of_perform hi k' calls rest hp] at hstep
    injection hstep with hnext hstate
    obtain rfl : us = [.run k' calls] :=
      (append_cancel_right (Next.go.inj hnext : [Task.run k' calls] ++ rest = us ++ rest)).symm
    exact .inr (hstate ▸ h)

theorem runs_panic (hC : C.Kept) (hr : Runs rest [.run (.panic :: k') calls] s [x] t) (hs : Healthy C s)
    (hst : s.stack = o :: below) : x = .run (.panic :: k') calls := by
  rcases hr.start with ⟨hx, -⟩ | ⟨us, u, hstep, h⟩
  · exact hx
  · have hleads : Leads C (fun _ => False) (.run k' calls :: rest) (step (.run (.panic :: k') calls :: rest) s) :=
      leads_require hC (by simp) hs hst True.intro
    rw [hstep] at hleads
    obtain ⟨-, -, hfalse, -⟩ := hleads.runs hC h hstep
    exact hfalse.elim

/-- Code without an end of its own. -/
inductive Climbs (C : Contract) : Nat → List Instruction → Nat → Prop where
  | nil (h : Nat) : Climbs C h [] h
  | cons {i is h h' h''} (hi : Does C i h h') (his : Climbs C h' is h'') : Climbs C h (i :: is) h''

theorem Climbs.append {h'' : Nat} {d : List Instruction} (hc : Climbs C h c h')
    (hd : Climbs C h' d h'') : Climbs C h (c ++ d) h'' := by
  induction hc with
  | nil => exact hd
  | cons hi _ ih => exact .cons hi (ih hd)

theorem Climbs.ends (hc : Climbs C h c h') (hk : Ends C h' k) : Ends C h (c ++ k) := by
  induction hc with
  | nil => exact hk
  | cons hi _ ih => exact .next hi (ih hk)

theorem Climbs.runs (hC : C.Kept) (hc : Climbs C h c h')
    (hr : Runs rest [.run (c ++ k') calls] s [x] t) (hs : Healthy C s)
    (hst : s.stack = vs ++ below) (hl : vs.length = h) : (∃ k, x = .run k calls ∧ k'.length < k.length) ∨
      ∃ w, Healthy C w ∧ Runs rest [.run (c ++ k') calls] s [.run k' calls] w ∧
        Runs rest [.run k' calls] w [x] t := by
  induction hc generalizing s vs with
  | nil => exact .inr ⟨s, hs, .refl _ s, hr⟩
  | @cons i is _ _ _ hi his ih =>
    rcases hi.runs hC hr hs hst hl with ⟨rfl, -⟩ | ⟨w, vs', hw, hst', hl', hfirst, hrest⟩
    · have hlength : k'.length < (i :: (is ++ k')).length := by
        rw [length_cons, length_append]
        omega
      exact .inl ⟨_, rfl, hlength⟩
    · rcases ih hrest hw hst' hl' with hwithin | ⟨u, hu, hto, hon⟩
      · exact .inl hwithin
      · exact .inr ⟨u, hu, hfirst.trans hto, hon⟩

def declares : Instruction → Bool
  | .noop | .declareClass .. | .markClass .. | .inheritMethod .. => true
  | _ => false

/-- A whole program: declarations, and code whose values stay. -/
inductive Top (C : Contract) : Nat → List Instruction → Prop where
  | nil (h : Nat) : Top C h []
  | halt (h : Nat) (is : List Instruction) : Top C h (.halt :: is)
  | next {i is h h'} (hi : Does C i h h') (his : Top C h' is) : Top C h (i :: is)
  | declare {i is h} (hi : declares i) (his : Top C h is) : Top C h (i :: is)
  | declareVariable {is h} (id : UInt64) {name : Bytes} (hget : C.arity (Selector.hash name) = 0)
    (hset : C.arity (Selector.hash (name ++ [58])) = 1) (his : Top C h is) : Top C h (.declareVariable id name :: is)
  | method {body is h hash} (name : Bytes) (hb : C.method hash body) (hend : ∀ i ∈ body, isEnd i = false)
    (his : Top C h is) : Top C h (.beginMethod hash name :: (body ++ .endMethod :: is))
  | storeGlobal {is h} (id : UInt64) (his : Top C h is) : Top C (h + 1) (.storeGlobal id :: is)

/-- Tasks at work above a program. -/
def Running (C : Contract) (calls : Calls) (ts : List Task) (s : State) : Prop :=
  ∃ xs code, ts = xs ++ [.run code calls] ∧ Healthy C s ∧
    Safe C (fun st => Top C st.length code) xs s.stack

theorem Climbs.top (hc : Climbs C h c h') (hk : Top C h' k) : Top C h (c ++ k) := by
  induction hc with
  | nil => exact hk
  | cons hi _ ih => exact .next hi (ih hk)

theorem Healthy.putClass (hs : Healthy C s) {c : Class} (hc : ∀ m ∈ c.methods, C.Suits m.1 m.2.body) :
    Healthy C { s with classes := replaceClass c s.classes } := by
  refine ⟨fun e he => ?_, hs.cells, hs.running⟩
  rcases mem_replaceClass he with rfl | h
  · exact hc
  · exact hs.methods e h

theorem Healthy.addMethod (hs : Healthy C s) {c : Class}
    (hc : s.classes.lookup id = some c) (hm : C.Suits hash m.body) :
    ∀ e ∈ (c.addMethod hash m).methods, C.Suits e.1 e.2.body := by
  intro e he
  rcases mem_cons.mp he with rfl | he
  · exact hm
  · exact hs.methods _ (mem_of_lookup hc) e he

/-- What holds of a step that keeps the machine healthy and leaves the stack alone. -/
def Quiet (C : Contract) (s : State) (x : Step Unit) : Prop :=
  Yields x s (fun _ t => Healthy C t ∧ t.stack = s.stack) fun e _ => e.isShortage = false

theorem isPlain_of_declares (h : declares i) : isPlain i := by
  cases i with
  | halt | panic | beginMethod | callMethod | callNative | return_ | returnLazy => cases h
  | _ => rfl

theorem quiet_declares (hi : declares i) (calls : Calls) (hs : Healthy C s) : Quiet C s (perform calls i) := by
  refine (yields_perform (isPlain_of_declares hi)).mono (fun _ t h => ?_) fun e t h => ?_
  · cases h with
    | noop | kept | reopened | marked => exact ⟨hs.congr rfl rfl rfl, rfl⟩
    | declared =>
      refine ⟨⟨fun e he => ?_, hs.cells, hs.running⟩, rfl⟩
      obtain he | he := mem_append.mp he
      · exact hs.methods e he
      · rw [mem_singleton.mp he]
        exact nofun
    | inherited hparent hheir hm => exact ⟨hs.putClass (hs.addMethod hheir (hs.method hparent hm)), rfl⟩
    | loaded h =>
      cases h with
      | constant hp => cases i <;> cases hp <;> cases hi
      | _ => cases hi
    | _ => cases hi
  · cases h with
    | emptied => cases hi
    | unmarked => rfl
    | lacks h =>
      cases h with
      | missingLocal h => obtain rfl | rfl := h <;> cases hi
      | emptyStack => cases hi
      | _ => rfl

theorem quiet_declareVariable (id : UInt64) {name : Bytes}
    (hget : C.arity (Selector.hash name) = 0) (hset : C.arity (Selector.hash (name ++ [58])) = 1)
    (calls : Calls) (hs : Healthy C s) : Quiet C s (perform calls (.declareVariable id name)) := by
  refine (yields_perform rfl).mono (fun _ t h => ?_) fun e t h => ?_
  · cases h with
    | loaded h => cases h with | constant hp => cases hp
    | @field _ _ _ k _ hk =>
      refine ⟨hs.putClass fun m hm => ?_, rfl⟩
      obtain rfl | hm := mem_cons.mp hm
      · exact hset
      · exact hs.addMethod (m := ⟨k.ref.name ++ 35 :: name, .getter id name⟩) hk hget m hm
  · cases h with
    | unmarked => rfl
    | lacks h =>
      cases h with
      | missingLocal h => obtain h | h := h <;> cases h
      | _ => rfl

theorem dropWhile_body (h : ∀ i ∈ body, isEnd i = false) (is : List Instruction) :
    (body ++ .endMethod :: is).dropWhile (!isEnd ·) = .endMethod :: is ∧
      (body ++ .endMethod :: is).takeWhile (!isEnd ·) = body := by
  induction body with
  | nil => exact ⟨rfl, rfl⟩
  | cons i body ih => simp_all

theorem define_spec (name : Bytes) (hb : C.method hash body)
    (hend : ∀ i ∈ body, isEnd i = false) (is : List Instruction) (calls : Calls) (hs : Healthy C s) :
    Yields (define calls hash name (body ++ .endMethod :: is)) s
      (fun rest t => rest = is ∧ Healthy C t ∧ t.stack = s.stack) (fun e _ => e.isShortage = false) := by
  obtain ⟨hdrop, htake⟩ := dropWhile_body hend is
  refine (yields_define hash name _).mono ?_ ?_
  · rintro rest t ⟨⟨i, hi⟩, c, k, -, hk, rfl⟩
    rw [hdrop] at hi
    cases hi
    rw [htake]
    exact ⟨rfl, hs.putClass (hs.addMethod hk hb), rfl⟩
  · rintro e t ⟨c, hc, rfl, rfl⟩
    cases hc <;> rfl

/-- What a step on a program at work comes to. -/
def Goes (C : Contract) (calls : Calls) : EStateM.Result Fault State Next → Prop
  | .ok (.go ts) t => Running C calls ts t
  | .ok (.finish _) _ => True
  | .error e _ => e.isShortage = false

theorem Leads.goes {code : List Instruction}
    (h : Leads C (fun st => Top C st.length code) [.run code calls] r) : Goes C calls r := by
  cases r with
  | error e t => exact h
  | ok next t =>
    obtain ⟨ts, rfl, ht, hsafe⟩ := h
    exact ⟨ts, code, rfl, ht, hsafe⟩

theorem goes_perform (hi : isPlain i) {is : List Instruction} (hq : Quiet C s (perform s.calls i))
    (his : Top C s.stack.length is) : Goes C calls (step [.run (i :: is) calls] s) := by
  rw [step_plain hi]
  cases hp : perform s.calls i s with
  | error e t =>
    rw [bind_of_error hp]
    exact hq.error hp
  | ok u t =>
    obtain ⟨ht, hst⟩ := hq.ok hp
    rw [bind_of_ok hp]
    exact ⟨[], is, rfl, ht, show Top C t.stack.length is from hst ▸ his⟩

theorem Running.goes (hC : C.Kept) (h : Running C calls ts s) : Goes C calls (step ts s) := by
  obtain ⟨xs, code, rfl, hs, hsafe⟩ := h
  cases xs with
  | cons t xs => exact (hsafe.leads hC (by simp) hs).goes
  | nil =>
    show Goes C calls (step [.run code calls] s)
    have htop : Top C s.stack.length code := hsafe
    generalize hh : s.stack.length = h at htop
    cases htop with
    | nil => exact True.intro
    | halt => exact True.intro
    | @next i is _ _ hi his =>
      refine (Leads.mono ?_ (hi.leads hC hs (append_nil _).symm hh is calls [])).goes
      grind
    | declare hi his => grind [goes_perform, isPlain_of_declares, quiet_declares]
    | declareVariable id hget hset his =>
      exact goes_perform rfl (quiet_declareVariable id hget hset s.calls hs) (hh ▸ his)
    | @method body is _ hash name hb hend his =>
      have hspec := define_spec name hb hend is s.calls hs
      show Goes C calls ((define s.calls hash name (body ++ .endMethod :: is) >>= fun is =>
        pure (.go [.run is calls])) s)
      cases hd : define s.calls hash name (body ++ .endMethod :: is) s with
      | error e t =>
        rw [bind_of_error hd]
        exact hspec.error hd
      | ok rest t =>
        obtain ⟨rfl, ht, hst⟩ := hspec.ok hd
        rw [bind_of_ok hd]
        exact ⟨[], rest, rfl, ht, show Top C t.stack.length rest by rw [hst, hh]; exact his⟩
    | @storeGlobal is h id his =>
      obtain ⟨o, below, hst⟩ := exists_cons_of_length_eq_add_one hh
      have hp : perform s.calls (.storeGlobal id) s = .ok ()
          { s with stack := below, globals := (id, o) :: s.globals.filter (·.1 != id) } :=
        (bind_of_ok (pop_cons s.calls hst)).trans rfl
      rw [step_of_perform rfl is calls [] hp]
      refine ⟨[], is, rfl, hs.congr rfl rfl rfl, show Top C below.length is from ?_⟩
      grind

theorem Running.reaches (hC : C.Kept) (hr : Reaches ts s us t) (h : Running C calls ts s) : Running C calls us t := by
  induction hr with
  | refl => exact h
  | step _ hstep ih =>
    have hgoes := ih.goes hC
    rw [hstep] at hgoes
    exact hgoes

end Parlance.Machine
