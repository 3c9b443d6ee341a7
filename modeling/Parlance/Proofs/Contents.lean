import Parlance.Proofs.MachineSteps
/-!
What all that a machine has is like: the payloads and classes of its values, its code, its calls.
-/
namespace Parlance.Machine

open List

structure Law where
  payload : Payload → Prop
  cls : ClassRef → Prop
  code : Instruction → Prop
  calls : Calls → Prop

namespace Law

variable {o v : Object} {x : Task} {ts : List Task} {stack : List Object}

/-- What there must be for steps to keep a law, where calls may be so deep. -/
structure Kept (L : Law) (limit : Nat) : Prop where
  plain : L.payload .plain
  lazy : ∀ cell, L.payload (.lazy cell)
  constant : ∀ {i p}, L.code i → constant? i = some p → L.payload p
  computed : ∀ {op a b p}, L.payload a → L.payload b → operate op a b = .ok p → L.payload p
  declared : ∀ {id name}, L.code (.declareClass id name) → L.cls ⟨id, name⟩
  body : ∀ {n body}, L.code (.loadLazy n body) → ∀ i ∈ body, L.code i
  call : ∀ {c}, L.calls c → c.depth < limit → ∀ f, L.calls (c.push f)

inductive Value (L : Law) : Object → Prop where
  | mk {serial cls payload slots} (hp : L.payload payload) (hc : ∀ c, cls = some c → L.cls c)
    (hs : ∀ e ∈ slots, Value L e.2) : Value L (.mk serial cls payload slots)

variable (L : Law)

def OnBody : Body → Prop
  | .code is => ∀ i ∈ is, L.code i
  | _ => True

def OnCell : Cell → Prop
  | .waiting body captured calls => (∀ i ∈ body, L.code i) ∧ (∀ o ∈ captured, L.Value o) ∧ L.calls calls
  | .done v => L.Value v

def OnWant : Want → Prop
  | .operand _ receiver => L.Value receiver
  | _ => True

def OnTask : Task → Prop
  | .run code calls => (∀ i ∈ code, L.code i) ∧ L.calls calls
  | .await _ want calls => L.OnWant want ∧ L.calls calls

def OnNext : Next → Prop
  | .go ts => ∀ x ∈ ts, L.OnTask x
  | .finish r => ∀ o, r = some o → L.Value o

structure Holds (s : State) : Prop where
  refs : ∀ e ∈ s.classes, L.cls e.2.ref
  methods : ∀ e ∈ s.classes, ∀ m ∈ e.2.methods, L.OnBody m.2.body
  marks : ∀ e ∈ s.marks, L.cls e.2
  globals : ∀ e ∈ s.globals, L.Value e.2
  stack : ∀ o ∈ s.stack, L.Value o
  cells : ∀ {i : Nat} {c : Cell}, s.cells[i]? = some c → L.OnCell c
  calls : L.calls s.calls

variable {L} {s t : State} {calls : Calls} {id hash : UInt64} {m : Method} {c : Class} {i : Instruction}

/-! ### Values -/

theorem Value.payload (h : L.Value o) : L.payload o.payload := by
  cases h
  assumption

theorem Value.held (h : L.Value o) (hv : o.held? id = some v) : L.Value v := by
  cases h with
  | mk _ _ hs => exact hs _ (mem_of_lookup hv)

theorem Value.set (h : L.Value o) (hv : L.Value v) (serial : Nat) (id : UInt64) : L.Value (o.set serial id v) := by
  cases h with
  | mk hp hc hs =>
    refine .mk hp hc fun e he => ?_
    obtain rfl | he := mem_cons.mp he
    · exact hv
    · exact hs e (mem_filter.mp he).1

theorem Holds.boxed (h : L.Holds s) {p : Payload} (hp : L.payload p) (ho : Boxed s p o) : L.Value o := by
  cases ho with
  | plain => exact .mk hp nofun nofun
  | @marked m c hm =>
    refine .mk hp (fun r hr => ?_) nofun
    cases hr
    exact h.marks (m, c) (mem_of_lookup hm)

theorem Holds.method (h : L.Holds s) {c : ClassRef} (hm : Answered calls s hash o c m) : L.OnBody m.body := by
  obtain ⟨k, hk, hm⟩ := hm.method
  exact h.methods _ (mem_of_lookup hk) _ (mem_of_lookup hm)

theorem Holds.withStack (h : L.Holds s) (hst : ∀ o ∈ stack, L.Value o) : L.Holds (s.withStack stack) :=
  { h with stack := hst }

theorem Holds.withCalls (h : L.Holds s) (hc : L.calls calls) : L.Holds (s.withCalls calls) := { h with calls := hc }

theorem Holds.push (h : L.Holds s) (ho : L.Value o) (made : Nat) : L.Holds { s with made, stack := o :: s.stack } :=
  { h with stack := forall_mem_cons.mpr ⟨ho, h.stack⟩ }

theorem Holds.settled (h : L.Holds s) (cell : Nat) (hv : L.Value v) : L.Holds (s.settled cell v) := by
  refine { h with cells := fun {i c} hc => ?_ }
  rcases State.cell_settled hc with rfl | hc
  · exact hv
  · exact h.cells hc

theorem Holds.settles (h : L.Holds s) (x : Task) (hst : s.stack = o :: stack) :
    L.Holds ((x.settles s o).withStack stack) ∧ L.Value o := by
  have hall := h.stack
  rw [hst] at hall
  obtain ⟨ho, hall⟩ := forall_mem_cons.mp hall
  refine ⟨?_, ho⟩
  cases x with
  | run => exact h.withStack hall
  | await cell => exact (h.settled cell ho).withStack hall

theorem Holds.returned (h : L.Holds s) (hst : s.stack = o :: stack) (n : Nat) :
    L.Holds (s.withStack (o :: stack.drop n)) := by
  obtain ⟨hs, ho⟩ := h.settles (.run [] .none) hst
  exact h.withStack (forall_mem_cons.mpr ⟨ho, fun v hv => hs.stack v (mem_of_mem_drop hv)⟩)

theorem Holds.putClass (h : L.Holds s) (hr : L.cls c.ref) (hc : ∀ m ∈ c.methods, L.OnBody m.2.body) :
    L.Holds { s with classes := replaceClass c s.classes } := by
  refine { h with refs := fun e he => ?_, methods := fun e he => ?_ }
  · obtain rfl | he := mem_replaceClass he
    · exact hr
    · exact h.refs e he
  · obtain rfl | he := mem_replaceClass he
    · exact hc
    · exact h.methods e he

theorem Holds.addMethod (h : L.Holds s) (hc : s.classes.lookup id = some c)
    (hm : L.OnBody m.body) : L.Holds { s with classes := replaceClass (c.addMethod hash m) s.classes } :=
  h.putClass (h.refs _ (mem_of_lookup hc)) (forall_mem_cons.mpr ⟨hm, h.methods _ (mem_of_lookup hc)⟩)

/-! ### Weaker laws -/

structure Le (L L' : Law) : Prop where
  payload : ∀ p, L.payload p → L'.payload p
  cls : ∀ c, L.cls c → L'.cls c
  code : ∀ i, L.code i → L'.code i
  calls : ∀ c, L.calls c → L'.calls c

section

variable {L' : Law} (hle : L.Le L')
include hle

theorem Le.value (h : L.Value o) : L'.Value o := by
  induction h with
  | mk hp hc _ ih => exact .mk (hle.payload _ hp) (fun c h => hle.cls c (hc c h)) ih

theorem Le.body {b : Body} (h : L.OnBody b) : L'.OnBody b := by
  cases b with
  | code => exact fun i hi => hle.code i (h i hi)
  | _ => exact True.intro

theorem Le.holds (h : L.Holds s) : L'.Holds s where
  refs e he := hle.cls _ (h.refs e he)
  methods e he m hm := hle.body (h.methods e he m hm)
  marks e he := hle.cls _ (h.marks e he)
  globals e he := hle.value (h.globals e he)
  stack o ho := hle.value (h.stack o ho)
  cells {i c} hc := by
    have hcell := h.cells hc
    cases c with
    | waiting =>
      obtain ⟨hbody, hcaptured, hcalls⟩ := hcell
      exact ⟨fun i hi => hle.code i (hbody i hi), fun o ho => hle.value (hcaptured o ho), hle.calls _ hcalls⟩
    | done => exact hle.value hcell
  calls := hle.calls _ h.calls

end

/-! ### Steps -/

theorem supplied {want : Want} {m : Move} (h : Supplied calls want o s m t) (hL : L.Kept s.maxDepth)
    (hs : L.Holds s) (ho : L.Value o) (hw : L.OnWant want) (hc : L.calls calls) :
    L.Holds t ∧ (∀ x ∈ m.tasks, L.OnTask x) ∧ ∀ r, m = .finish r → L.OnNext (.finish r) := by
  induction h with
  | @work _ _ s _ _ _ _ _ hcell =>
    obtain ⟨hbody, hcaptured, hcontext⟩ := hs.cells hcell
    refine ⟨hs.withStack fun x hx => ?_, ?_, nofun⟩
    · obtain hx | hx := mem_append.mp hx
      · exact hcaptured x (mem_reverse.mp hx)
      · exact hs.stack x hx
    · simp only [Move.tasks, forall_mem_cons]
      exact ⟨⟨hbody, hcontext⟩, ⟨hw, hc⟩, nofun⟩
  | @known _ _ _ s _ _ hcell =>
    refine ⟨hs.push (hs.cells hcell) s.made, ?_, nofun⟩
    simp only [Move.tasks, forall_mem_cons]
    exact ⟨⟨hw, hc⟩, nofun⟩
  | operand _ hst h ih =>
    obtain ⟨hs', hp⟩ := hs.settles (.run [] calls) hst
    exact ih hL hs' hp ho
  | @computed n _ _ _ _ _ hp hv =>
    refine ⟨hs.push (hs.boxed ?_ hv) _, nofun, nofun⟩
    cases n with
    | plus | minus => exact hL.computed hw.payload ho.payload hp
    | equal => exact hp ▸ hL.plain
  | @entered _ _ _ _ _ _ s _ _ h =>
    refine ⟨hs.push ho s.made, ?_, nofun⟩
    simp only [Move.tasks, forall_mem_cons]
    exact ⟨⟨hs.method h, hL.call hc h.room _⟩, nofun⟩
  | @got _ _ _ _ _ _ _ _ s _ _ _ hv => exact ⟨hs.push (ho.held hv) s.made, nofun, nofun⟩
  | put _ hst =>
    obtain ⟨hs', hv⟩ := hs.settles (.run [] calls) hst
    exact ⟨hs'.push (ho.set hv _ _) _, nofun, nofun⟩
  | result =>
    refine ⟨hs, nofun, ?_⟩
    rintro _ ⟨⟩ _ ⟨⟩
    exact ho

theorem Holds.loads (h : L.Holds s) (hL : L.Kept s.maxDepth) (hi : L.code i) (ho : Loads s i o) : L.Value o := by
  cases ho with
  | object hk =>
    refine .mk hL.plain (fun c hc => ?_) nofun
    cases hc
    exact h.refs _ (mem_of_lookup hk)
  | loadLocal ho => exact h.stack _ (mem_of_getElem? ho)
  | loadGlobal ho => exact h.globals _ (mem_of_lookup ho)
  | constant hp ho => exact h.boxed (hL.constant hi hp) ho

theorem performed (h : Performed calls s i t) (hL : L.Kept s.maxDepth) (hs : L.Holds s)
    (hi : L.code i) (hc : L.calls calls) : L.Holds t := by
  cases h with
  | noop | kept => exact hs
  | reopened => exact { hs with }
  | declared =>
    refine { hs with refs := fun e he => ?_, methods := fun e he => ?_ }
    · obtain he | he := mem_append.mp he
      · exact hs.refs e he
      · rw [mem_singleton.mp he]
        exact hL.declared hi
    · obtain he | he := mem_append.mp he
      · exact hs.methods e he
      · rw [mem_singleton.mp he]
        exact nofun
  | field hd hk =>
    refine hs.putClass (hs.refs _ (mem_of_lookup hk)) ?_
    simp only [Class.addVariable, Class.addMethod, forall_mem_cons]
    exact ⟨True.intro, True.intro, hs.methods _ (mem_of_lookup hk)⟩
  | inherited hparent hheir hm =>
    exact hs.addMethod hheir (hs.methods _ (mem_of_lookup hparent) _ (mem_of_lookup hm))
  | loaded ho => exact hs.push (hs.loads hL hi ho) _
  | dropped => exact hs.withStack fun o ho => hs.stack o (mem_of_mem_eraseIdx ho)
  | stored hst =>
    obtain ⟨hs', ho⟩ := hs.settles (.run [] calls) hst
    refine { hs' with globals := forall_mem_cons.mpr ⟨ho, fun e he => ?_⟩ }
    exact hs.globals e (mem_filter.mp he).1
  | @suspended n body vs below hst =>
    have hall := hs.stack
    rw [hst, forall_mem_append] at hall
    refine { hs with
      stack := forall_mem_cons.mpr ⟨.mk (hL.lazy _) nofun nofun, hall.2⟩
      cells := fun {j c} hj => ?_ }
    rcases State.cell_suspend hj with ⟨-, rfl⟩ | hj
    · exact ⟨hL.body hi, fun o ho => hall.1 o (mem_reverse.mp ho), hc⟩
    · exact hs.cells hj
  | marked hk => exact { hs with marks := forall_mem_cons.mpr ⟨hs.refs _ (mem_of_lookup hk), hs.marks⟩ }

theorem OnTask.want {want : Want} (h : L.OnTask x) (hw : x.want? = some want) : L.OnWant want := by
  cases x with
  | await =>
    cases hw
    exact h.1
  | run code calls =>
    cases code with
    | nil => cases hw
    | cons i is =>
      cases i with
      | panic | callMethod | callNative =>
        cases hw
        exact True.intro
      | _ => cases hw

theorem OnTask.onCalls (h : L.OnTask x) : L.calls x.calls := by
  cases x <;> exact h.2

theorem leftCalls (h : ∀ x ∈ ts, L.OnTask x) (b : Bool) (hc : L.calls calls) :
    L.calls (Machine.leftCalls b calls ts) := by
  induction ts generalizing calls with
  | nil => exact hc
  | cons x ts ih =>
    obtain ⟨hx, hts⟩ := forall_mem_cons.mp h
    cases x with
    | await => exact hx.2
    | run code calls =>
      rw [Machine.leftCalls]
      split
      · exact ih hts hx.2
      · exact hx.2

theorem left (h : ∀ x ∈ ts, L.OnTask x) (b : Bool) : L.OnNext (Machine.left b ts) := by
  induction ts with
  | nil => nofun
  | cons x ts ih =>
    cases x with
    | await => exact h
    | run code calls =>
      rw [Machine.left]
      split
      · exact ih (forall_mem_cons.mp h).2
      · exact h

theorem moved {m : Move} (hs : L.Holds s) (hm : ∀ x ∈ m.tasks, L.OnTask x) (hts : ∀ x ∈ ts, L.OnTask x) (b : Bool) :
    L.Holds (s.withCalls (m.nextCalls b ts s.calls)) := by
  refine hs.withCalls ?_
  cases m with
  | ahead xs =>
    cases xs with
    | nil => exact hs.calls
    | cons y _ => exact (hm y mem_cons_self).onCalls
  | back => exact leftCalls hts _ hs.calls
  | finish => exact hs.calls

theorem stepped {next : Next} (h : Stepped s x ts next t) (hL : L.Kept s.maxDepth)
    (hs : L.Holds s) (hx : L.OnTask x) (hts : ∀ x ∈ ts, L.OnTask x) : L.Holds t ∧ L.OnNext next := by
  have hgo {is : List Instruction} {calls : Calls} (his : ∀ i ∈ is, L.code i) (hc : L.calls calls) :
      L.OnNext (.go (.run is calls :: ts)) := forall_mem_cons.mpr ⟨⟨his, hc⟩, hts⟩
  cases h with
  | ended => exact ⟨hs.withCalls (leftCalls hts _ hs.calls), left hts _⟩
  | halted => exact ⟨{ hs with calls := leftCalls hts _ hs.calls }, left hts _⟩
  | returned _ hst => exact ⟨(hs.returned hst _).withCalls (leftCalls hts _ hs.calls), left hts _⟩
  | @defined _ _ is rest _ _ _ h =>
    obtain ⟨⟨i, hdrop⟩, c, k, -, hk, rfl⟩ := h
    have his : ∀ i ∈ is, L.code i := (forall_mem_cons.mp hx.1).2
    refine ⟨hs.addMethod hk fun i hi => his i ((List.takeWhile_prefix _).subset hi), hgo (fun j hj => his j ?_) hx.2⟩
    grind [dropWhile_suffix]
  | performed _ h =>
    obtain ⟨hi, his⟩ := forall_mem_cons.mp hx.1
    exact ⟨Law.performed h hL hs hi hs.calls, hgo his hx.2⟩
  | @supplied _ _ want o stack m _ hw hst h =>
    obtain ⟨hs', ho⟩ := hs.settles x hst
    obtain ⟨ht, hm, hf⟩ := Law.supplied h (by cases x <;> exact hL) hs' ho (hx.want hw) hs.calls
    have hbehind : ∀ y ∈ x.behind ++ ts, L.OnTask y := by
      cases x with
      | await => exact hts
      | run code calls => exact hgo (fun i hi => hx.1 i (mem_of_mem_tail hi)) hx.2
    refine ⟨moved ht hm hbehind _, ?_⟩
    cases m with
    | ahead xs => exact forall_mem_append.mpr ⟨hm, hbehind⟩
    | back => exact left hbehind _
    | finish r => exact hf r rfl

theorem stuck {e : Fault} (h : Stuck s x e t) (hs : L.Holds s) : L.Holds t := by
  obtain ⟨-, v, stack, hv, hsuffix, rfl⟩ := h.frame
  have hst : ∀ o ∈ stack, L.Value o := fun o ho => hs.stack o (hsuffix.subset ho)
  obtain rfl | ⟨o, ho, rfl⟩ := hv
  · exact hs.withStack hst
  · cases x with
    | run => exact hs.withStack hst
    | await cell => exact (hs.settled cell (hs.stack o ho)).withStack hst

/-! ### Runs -/

theorem reached {us : List Task} (hr : Reaches ts s us t) (hL : L.Kept s.maxDepth) (hs : L.Holds s)
    (hts : ∀ x ∈ ts, L.OnTask x) : L.Holds t ∧ (∀ x ∈ us, L.OnTask x) ∧ t.maxDepth = s.maxDepth := by
  induction hr with
  | refl => exact ⟨hs, hts, rfl⟩
  | step _ hstep ih =>
    obtain ⟨ht, hus, hmax⟩ := ih
    obtain ⟨-, hgo, -⟩ | ⟨x, xs, rfl, h⟩ := step_ok hstep
    · cases hgo
    · obtain ⟨hx, hxs⟩ := forall_mem_cons.mp hus
      obtain ⟨hu, hvs⟩ := stepped h (hmax ▸ hL) ht hx hxs
      exact ⟨hu, hvs, h.stays.1.trans hmax⟩

theorem unwound (h : L.Holds s) (hts : ∀ x ∈ ts, L.OnTask x) : L.Holds (Machine.unwound ts s) := by
  rw [unwound_eq]
  refine h.withCalls ?_
  cases hlast : ts.getLast? with
  | none => exact h.calls
  | some x => exact (hts x (mem_of_getLast? hlast)).onCalls

theorem iterated (fuel : Nat) (hL : L.Kept s.maxDepth) (hs : L.Holds s)
    (hts : ∀ x ∈ ts, L.OnTask x) : Yields (iterate step fuel ts) s
      (fun q t => L.Holds t ∧ t.maxDepth = s.maxDepth ∧ ∀ o, q = some o → L.Value o)
      (fun _ t => L.Holds t ∧ t.maxDepth = s.maxDepth) := by
  refine (yields_iterate fuel ts).mono ?_ ?_
  · rintro q t ⟨us, u, hr, hstep⟩
    obtain ⟨hu, hus, hmax⟩ := reached hr hL hs hts
    obtain ⟨-, hq, rfl⟩ | ⟨x, xs, rfl, h⟩ := step_ok hstep
    · cases hq
      exact ⟨hu, hmax, nofun⟩
    · obtain ⟨hx, hxs⟩ := forall_mem_cons.mp hus
      obtain ⟨ht, hq⟩ := stepped h (hmax ▸ hL) hu hx hxs
      exact ⟨ht, h.stays.1.trans hmax, hq⟩
  · rintro e t ⟨us, u, v, hr, hend, rfl⟩
    obtain ⟨hu, hus, hmax⟩ := reached hr hL hs hts
    have hv : L.Holds v ∧ v.maxDepth = s.maxDepth := by
      obtain ⟨-, rfl⟩ | hstep := hend
      · exact ⟨hu, hmax⟩
      · obtain ⟨x, xs, -, h⟩ := step_error hstep
        exact ⟨stuck h hu, h.maxDepth.trans hmax⟩
    rw [maxDepth_unwound]
    exact ⟨unwound hv.1 hus, hv.2⟩

end Law

end Parlance.Machine
