import Parlance.Proofs.Contents
import Parlance.Proofs.Halting
import Parlance.Proofs.StackHeights
/-!
Classes and globals, which code asks for by number. What is asked for before it is there is still to be
declared by the rest of the program.
-/
namespace Parlance.Machine

open List

variable {i : Instruction} {is : List Instruction} {D R : Ref → Prop} {e : Fault} {x : Task} {r : Ref}
  {ts xs : List Task} {id : UInt64} {calls : Calls}

def gives? : Instruction → Option Ref
  | .declareClass id _ => some (.cls id)
  | .storeGlobal id => some (.global id)
  | _ => none

def isInner : Instruction → Bool
  | .declareClass .. | .declareVariable .. | .beginMethod .. | .endMethod | .inheritMethod .. | .markClass ..
  | .storeGlobal _ | .halt => false
  | _ => true

theorem isInner_of_constant {p : Payload} (h : constant? i = some p) : isInner i := by
  cases i <;> first | rfl | cases h

theorem isInner_of_wants {want : Want} (h : (Task.run (i :: is) calls).want? = some want) : isInner i := by
  cases i <;> first | rfl | cases h

/-- An instruction of a method or a lazy value that asks, also in lazy values within it, for nothing but
what `R` allows. -/
inductive Asks (R : Ref → Prop) : Instruction → Prop where
  | mk {i : Instruction} (hi : isInner i) (hr : ∀ r ∈ refs i, R r)
    (hb : ∀ {n : UInt16} {body : List Instruction}, i = .loadLazy n body → ∀ j ∈ body, Asks R j) : Asks R i

theorem Asks.isEnd (h : Asks R i) : isEnd i = false := by
  obtain ⟨hinner, -⟩ := h
  cases i with
  | endMethod => cases hinner
  | _ => rfl

theorem Asks.mono {R' : Ref → Prop} (hR : ∀ r, R r → R' r) (h : Asks R i) : Asks R' i := by
  induction h with
  | mk hi hr hb ih => exact .mk hi (fun r h => hR r (hr r h)) fun he j hj => ih he j hj

def Fault.missing? : Fault → Option Ref
  | .panic ⟨.noClass id, _⟩ => some (.cls id)
  | .panic ⟨.unsetGlobal id, _⟩ => some (.global id)
  | _ => none

def Known (s : State) : Ref → Prop
  | .cls id => (s.classes.lookup id).isSome
  | .global id => (s.globals.lookup id).isSome

variable {L K K' : Ref → Prop} {s t : State}

/-- The values of the machine have classes that are there, and the code of methods and lazy values asks for
nothing but what is there or is one of `L`, which may come later. -/
def law (L K : Ref → Prop) : Law where
  payload _ := True
  cls c := K (.cls c.id)
  code := Asks fun r => K r ∨ L r
  calls _ := True

theorem law_kept (L K : Ref → Prop) (limit : Nat) : (law L K).Kept limit where
  plain := True.intro
  lazy _ := True.intro
  constant _ _ := True.intro
  computed _ _ _ := True.intro
  declared h := by
    obtain ⟨hinner, -⟩ := h
    cases hinner
  body h := by
    obtain ⟨-, -, hb⟩ := h
    exact hb rfl
  call _ _ _ := True.intro

theorem law_le (hK : ∀ r, K r → K' r) : (law L K).Le (law L K') where
  payload _ h := h
  cls _ h := hK _ h
  code _ h := h.mono fun r => Or.imp_left (hK r)
  calls _ h := h

/-- A machine that keeps to the law with what it knows. -/
structure Valid (L : Ref → Prop) (s : State) : Prop where
  refs : ∀ e ∈ s.classes, e.2.ref.id = e.1
  holds : (law L (Known s)).Holds s
  declaring : ∀ c, s.declaring = some c → Known s (.cls c)
  running : s.halted = false

theorem known_congr (hc : t.classes = s.classes) (hg : t.globals = s.globals) : Known t = Known s := by
  funext r
  cases r <;> simp only [Known, hc, hg]

/-! ### What is missing -/

theorem Refused.missing {want : Want} {o : Object} (h : Refused calls want o s e t)
    (ho : (law L (Known s)).Value o) : e.missing? = none := by
  induction h with
  | operand _ h =>
    -- Native methods do not look for classes.
    cases h with
    | unworkable h => cases h <;> rfl
    | foreign => rfl
  | unworkable h => cases h <;> rfl
  | unanswered h =>
    cases h with
    | @noClass c hc hk =>
      cases ho with
      | mk _ hcls _ =>
        have hknown : Known _ (.cls c.id) := hcls c hc
        simp [Known, hk] at hknown
    | _ => rfl
  | foreign | raised | bare | unset | nothing => rfl

theorem Valid.missing (h : Valid L s) (hstuck : Stuck s x e t)
    (hx : ∀ {i is calls}, x = .run (i :: is) calls → ∀ r ∈ Machine.refs i, Known s r ∨ L r)
    (hr : e.missing? = some r) : L r ∧ ¬ Known s r := by
  have hdeclaring {c : UInt64} (hd : s.declaring = some c) (hk : s.classes.lookup c = none) : False := by
    simpa [Known, hk] using h.declaring c hd
  cases hstuck with
  | short | emptied => cases hr
  | undefined hc =>
    cases hc with
    | noClass hd hk => exact (hdeclaring hd hk).elim
    | _ => cases hr
  | unperformed _ hfail =>
    cases hfail with
    | emptied | unmarked => cases hr
    | lacks hlack =>
      cases hlack with
      | @noClass _ id hi hk =>
        cases hr
        grind [Known]
      | @unsetGlobal id ho =>
        cases hr
        have hno : ¬ Known s (.global id) := by simp [Known, ho]
        exact ⟨(hx rfl _ mem_cons_self).resolve_left hno, hno⟩
      | undeclared hd hk => exact (hdeclaring hd hk).elim
      | _ => cases hr
  | @refused _ _ o stack _ _ _ hst hrefused =>
    have ho := (h.holds.settles x hst).2
    have hknown : Known ((x.settles s o).withStack stack) = Known s := by cases x <;> rfl
    cases (hrefused.missing (L := L) (hknown ▸ ho)).symm.trans hr

/-! ### Code of methods, lazy values and expressions -/

def Task.later : Task → List Task
  | .run (i :: is) calls => if isReturn i then [] else [.run is calls]
  | _ => []

/-- A task that begins with an instruction that may stand anywhere. -/
def Task.Inner (L : Ref → Prop) (s : State) : Task → Prop
  | .run (i :: _) _ => Asks (fun r => Known s r ∨ L r) i
  | x => (law L (Known s)).OnTask x

theorem Asks.performed (hi : Asks R i) (h : Performed calls s i t) :
    t.classes = s.classes ∧ t.globals = s.globals ∧ t.declaring = s.declaring ∧ t.halted = s.halted := by
  obtain ⟨hinner, -⟩ := hi
  cases h with
  | noop | loaded | dropped | suspended => exact ⟨rfl, rfl, rfl, rfl⟩
  | _ => cases hinner

theorem Valid.congr (h : Valid L s) (ht : (law L (Known s)).Holds t) (hc : t.classes = s.classes)
    (hg : t.globals = s.globals) (hd : t.declaring = s.declaring) (hh : t.halted = s.halted) : Valid L t := by
  have hk := known_congr hc hg
  exact ⟨hc ▸ h.refs, hk.symm ▸ ht, by rw [hd, hk]; exact h.declaring, hh.trans h.running⟩

theorem Valid.stepped (h : Valid L s) {next : Next} (hx : x.Inner L s)
    (hne : x.later ++ ts ≠ []) (hstep : Stepped s x ts next t) :
    t.classes = s.classes ∧ ((∃ q, next = .finish q) ∨ Valid L t ∧ t.globals = s.globals ∧
      ∃ new, next = .go (new ++ (x.later ++ ts)) ∧ ∀ y ∈ new, (law L (Known s)).OnTask y) := by
  have hback {ts : List Task} (hne : ts ≠ []) : left s.halted ts = .go ts := by
    rw [h.running]
    exact Move.next_of_running hne (m := .back) nofun
  cases hstep with
  | ended =>
    exact ⟨rfl, .inr ⟨h.congr (h.holds.withCalls True.intro) rfl rfl rfl rfl, rfl, [], hback hne, nofun⟩⟩
  | halted | defined =>
    obtain ⟨hinner, -⟩ := hx
    cases hinner
  | @returned i is calls _ n o stack hi hst hn =>
    have hlater : (Task.run (i :: is) calls).later = [] := by obtain rfl | rfl := hi <;> rfl
    rw [hlater] at hne ⊢
    have ht : (law L (Known s)).Holds
        ((s.withStack (o :: stack.drop n.toNat)).withCalls (leftCalls s.halted s.calls ts)) :=
      (h.holds.returned hst _).withCalls True.intro
    exact ⟨rfl, .inr ⟨h.congr ht rfl rfl rfl rfl, rfl, [], hback hne, nofun⟩⟩
  | @performed i is calls _ _ hi hp =>
    have hlater : (Task.run (i :: is) calls).later = [.run is calls] := by
      cases i with
      | return_ | returnLazy => cases hi
      | _ => rfl
    obtain ⟨hc, hg, hd, hh⟩ := hx.performed hp
    have ht := Law.performed hp (law_kept L _ _) h.holds hx True.intro
    exact ⟨hc, .inr ⟨h.congr ht hc hg hd hh, hg, [], by rw [hlater]; rfl, nofun⟩⟩
  | @supplied _ _ want o stack m _ hw hst hp =>
    have hlater : x.later = x.behind := by
      cases x with
      | await => rfl
      | run code calls =>
        cases code with
        | nil => cases hw
        | cons i is => cases i <;> first | rfl | cases hw
    have hwant : (law L (Known s)).OnWant want := by
      cases x with
      | await =>
        cases hw
        exact hx.1
      | run code calls =>
        cases code with
        | nil => cases hw
        | cons i is => cases i <;> cases hw <;> exact True.intro
    obtain ⟨hs, ho⟩ := h.holds.settles x hst
    obtain ⟨ht, hm, -⟩ := Law.supplied hp (law_kept L _ _) hs ho hwant True.intro
    obtain ⟨made, stack', rfl⟩ := hp.frame
    have hsame : (x.settles s o).classes = s.classes ∧ (x.settles s o).globals = s.globals ∧
        (x.settles s o).declaring = s.declaring ∧ (x.settles s o).halted = s.halted := by
      cases x <;> exact ⟨rfl, rfl, rfl, rfl⟩
    obtain ⟨hc, hg, hd, hh⟩ := hsame
    rw [hlater] at hne ⊢
    refine ⟨hc, ?_⟩
    cases m with
    | finish q => exact .inl ⟨q, rfl⟩
    | ahead xs => exact .inr ⟨h.congr (ht.withCalls True.intro) hc hg hd hh, hg, xs, rfl, hm⟩
    | back =>
      refine .inr ⟨h.congr (ht.withCalls True.intro) hc hg hd hh, hg, [], ?_, nofun⟩
      have hleft := hback hne
      rw [← hh] at hleft
      exact hleft

/-! ### Programs -/

def isLink : Instruction → Bool
  | .markClass .. | .inheritMethod .. => true
  | _ => false

/-- The code of a program where `D` is there already: what it asks for is there by then, or is one of `L`. -/
inductive Orderly (L : Ref → Prop) : (Ref → Prop) → List Instruction → Prop where
  | nil (D : Ref → Prop) : Orderly L D []
  | halt (D : Ref → Prop) (is : List Instruction) : Orderly L D (.halt :: is)
  | inner {D : Ref → Prop} {i is} (hi : Asks (fun r => D r ∨ L r) i) (hret : isReturn i = false) (h : Orderly L D is) :
    Orderly L D (i :: is)
  | gives {D : Ref → Prop} {i is r} (hi : gives? i = some r) (h : Orderly L (fun x => D x ∨ x = r) is) :
    Orderly L D (i :: is)
  | field {D : Ref → Prop} {is} (id : UInt64) (name : Bytes) (h : Orderly L D is) :
    Orderly L D (.declareVariable id name :: is)
  | link {D : Ref → Prop} {i is} (hi : isLink i) (hr : ∀ r ∈ refs i, D r ∨ L r) (h : Orderly L D is) :
    Orderly L D (i :: is)
  | method {D : Ref → Prop} {body is} (hash : UInt64) (name : Bytes) (hb : ∀ j ∈ body, Asks (fun r => D r ∨ L r) j)
    (h : Orderly L D is) : Orderly L D (.beginMethod hash name :: (body ++ .endMethod :: is))

theorem Orderly.mono {D' : Ref → Prop} (hD : ∀ r, D r → D' r) (h : Orderly L D is) : Orderly L D' is := by
  induction h generalizing D' with
  | nil D => exact .nil D'
  | halt D is => exact .halt D' is
  | inner hi hret _ ih => exact .inner (hi.mono fun r => Or.imp_left (hD r)) hret (ih hD)
  | gives hi _ ih => exact .gives hi (ih fun x => Or.imp_left (hD x))
  | field id name _ ih => exact .field id name (ih hD)
  | link hi hr _ ih => exact .link hi (fun r h => (hr r h).imp_left (hD r)) (ih hD)
  | method hash name hb _ ih => exact .method hash name (fun j hj => (hb j hj).mono fun r => Or.imp_left (hD r)) (ih hD)

def Gives (code : List Instruction) (r : Ref) : Prop := ∃ i ∈ code, gives? i = some r

theorem gives_cons : Gives (i :: is) r ↔ gives? i = some r ∨ Gives is r := by simp [Gives]

theorem gives_append {c k : List Instruction} : Gives (c ++ k) r ↔ Gives c r ∨ Gives k r := by
  simp [Gives, or_and_right, exists_or]

theorem not_gives_of_asks {c : List Instruction} (h : ∀ i ∈ c, Asks R i) (r : Ref) : ¬ Gives c r := by
  rintro ⟨i, hi, hr⟩
  obtain ⟨hinner, -⟩ := h i hi
  cases i with
  | declareClass | storeGlobal => cases hinner
  | _ => cases hr

theorem lookup_replaceClass (c : Class) (l : List (UInt64 × Class)) (id : UInt64) :
    (replaceClass c l).lookup id = if id = c.ref.id then some c else l.lookup id := by
  induction l with
  | nil => grind [replaceClass]
  | cons e l ih =>
    rw [replaceClass]
    grind

theorem known_putClass (c : Class) (h : Known s r) : Known { s with classes := replaceClass c s.classes } r := by
  cases r with
  | global id => exact h
  | cls id =>
    show ((replaceClass c s.classes).lookup id).isSome
    rw [lookup_replaceClass]
    split
    · rfl
    · exact h

theorem Valid.grow (h : Valid L s) (hK : ∀ r, Known s r → Known t r) (hrefs : ∀ e ∈ t.classes, e.2.ref.id = e.1)
    (ht : (law L (Known t)).Holds s → (law L (Known t)).Holds t) (hd : ∀ c, t.declaring = some c → Known t (.cls c))
    (hh : t.halted = s.halted) : Valid L t :=
  ⟨hrefs, ht ((law_le hK).holds h.holds), hd, hh.trans h.running⟩

theorem Valid.putClass (h : Valid L s) {c k : Class} (hk : s.classes.lookup id = some k)
    (hc : c.ref = k.ref) (hm : ∀ m ∈ c.methods, (law L (Known s)).OnBody m.2.body) :
    Valid L { s with classes := replaceClass c s.classes } := by
  have hK (r : Ref) (hr : Known s r) := known_putClass c hr
  refine h.grow hK (fun e he => ?_) (fun ht => ht.putClass ?_ fun m hmem => (law_le hK).body (hm m hmem))
    (fun d hd => hK _ (h.declaring d hd)) rfl
  · obtain rfl | he := mem_replaceClass he
    · rfl
    · exact h.refs e he
  · rw [hc]
    exact hK (.cls k.ref.id) (h.holds.refs _ (mem_of_lookup hk))

theorem Valid.addMethod (h : Valid L s) {k : Class} (hk : s.classes.lookup id = some k) (hash : UInt64)
    {m : Method} (hm : (law L (Known s)).OnBody m.body) :
    Valid L { s with classes := replaceClass (k.addMethod hash m) s.classes } :=
  h.putClass hk rfl (forall_mem_cons.mpr ⟨hm, h.holds.methods _ (mem_of_lookup hk)⟩)

theorem lookup_store (l : List (UInt64 × Object)) (id x : UInt64) (o : Object) :
    (((id, o) :: l.filter (·.1 != id)).lookup x).isSome ↔ (l.lookup x).isSome ∨ x = id := by
  by_cases h : x = id
  · subst h
    simp
  · simp_all

theorem Valid.performed (h : Valid L s) (hi : isInner i = false)
    (hp : Performed calls s i t) : Valid L t ∧ ∀ r, Known s r ∨ gives? i = some r → Known t r := by
  have hput (c : Class) (i : Instruction) (hi : gives? i = none) (r : Ref) (hr : Known s r ∨ gives? i = some r) :
      Known { s with classes := replaceClass c s.classes } r := by
    rw [hi] at hr
    exact known_putClass c (hr.resolve_right (by simp))
  cases hp with
  | noop | dropped | suspended => cases hi
  | loaded ho =>
    cases ho with
    | constant hp => cases hi.symm.trans (isInner_of_constant hp)
    | _ => cases hi
  | kept => exact ⟨h, fun r hr => hr.resolve_right (by rintro ⟨⟩)⟩
  | @reopened id _ hk =>
    refine ⟨h.grow (fun _ hr => hr) h.refs (fun ht => { ht with }) (fun c hc => ?_) rfl, fun r hr => ?_⟩
    · cases hc
      exact hk
    · obtain hr | hr := hr
      · exact hr
      · cases hr
        exact hk
  | @declared id name =>
    have hK (r : Ref) (hr : Known s r ∨ r = .cls id) : Known { s with
        classes := s.classes ++ [(id, Class.mk ⟨id, name⟩ [])]
        declaring := some id
        events := .classMade name :: s.events } r := by
      obtain hr | rfl := hr
      · cases r with
        | global => exact hr
        | cls x => grind [Known]
      · simp [Known, lookup_append]
    refine ⟨h.grow (fun r hr => hK r (.inl hr)) (fun e he => ?_) (fun ht => { ht with
      refs := forall_mem_append.mpr ⟨ht.refs, forall_mem_singleton.mpr (hK _ (.inr rfl))⟩
      methods := forall_mem_append.mpr ⟨ht.methods, forall_mem_singleton.mpr (forall_mem_nil _)⟩ })
      (fun c hc => ?_) rfl, fun r hr => hK r (hr.imp_right fun hr => (Option.some.inj hr).symm)⟩
    · obtain he | he := mem_append.mp he
      · exact h.refs e he
      · rw [mem_singleton.mp he]
    · cases hc
      exact hK _ (.inr rfl)
  | field _ hk =>
    refine ⟨h.putClass hk rfl ?_, hput _ _ rfl⟩
    simp only [Class.addVariable, Class.addMethod, forall_mem_cons]
    exact ⟨True.intro, True.intro, h.holds.methods _ (mem_of_lookup hk)⟩
  | inherited hparent hheir hm =>
    exact ⟨h.addMethod hheir _ (h.holds.methods _ (mem_of_lookup hparent) _ (mem_of_lookup hm)), hput _ _ rfl⟩
  | @stored id o stack hst =>
    have hK (r : Ref) (hr : Known s r ∨ r = .global id) : Known { s with
        stack, globals := (id, o) :: s.globals.filter (·.1 != id) } r := by
      cases r with
      | cls => exact hr.resolve_right (by simp)
      | global x => exact (lookup_store _ id x o).mpr (hr.imp_right fun hr => Ref.global.inj hr)
    refine ⟨h.grow (fun r hr => hK r (.inl hr)) h.refs (fun ht => ?_) (fun c hc => hK _ (.inl (h.declaring c hc))) rfl,
      fun r hr => hK r (hr.imp_right fun hr => (Option.some.inj hr).symm)⟩
    obtain ⟨hs, ho⟩ := ht.settles (.run [] calls) hst
    exact { hs with globals := forall_mem_cons.mpr ⟨ho, fun e he => ht.globals e (mem_filter.mp he).1⟩ }
  | marked hk =>
    refine ⟨h.grow (fun _ hr => hr) h.refs (fun ht => { ht with
      marks := forall_mem_cons.mpr ⟨ht.refs _ (mem_of_lookup hk), ht.marks⟩ }) h.declaring rfl,
      fun r hr => hr.resolve_right (by rintro ⟨⟩)⟩

/-- A machine that runs a program: of what the program gives, all is there that does not lie ahead. -/
structure Keeping (L : Ref → Prop) (code : List Instruction) (xs : List Task) (k : List Instruction) (s : State) :
    Prop where
  valid : Valid L s
  tasks : ∀ x ∈ xs, (law L (Known s)).OnTask x
  ahead : Orderly L (Known s) k
  given : ∀ r, Gives code r → Known s r ∨ Gives k r

theorem inner_of_onTask (hx : (law L (Known s)).OnTask x) : x.Inner L s := by
  cases x with
  | await => exact hx
  | run code calls =>
    cases code with
    | nil => exact hx
    | cons i is => exact hx.1 i mem_cons_self

theorem later_of_onTask (hx : (law L (Known s)).OnTask x) : ∀ y ∈ x.later, (law L (Known s)).OnTask y := by
  cases x with
  | await => exact nofun
  | run code calls =>
    cases code with
    | nil => exact nofun
    | cons i is =>
      rw [Task.later]
      split
      · exact nofun
      · exact forall_mem_singleton.mpr ⟨(forall_mem_cons.mp hx.1).2, hx.2⟩

/-- What a step leads to while a program is kept to. -/
def Onward (L : Ref → Prop) (code : List Instruction) (next : Next) (t : State) : Prop :=
  (∃ q, next = .finish q) ∨ ∃ ys k, next = .go (ys ++ [.run k .none]) ∧ Keeping L code ys k t

variable {code k : List Instruction} {next : Next}

theorem Keeping.step_inner (h : Keeping L code (x :: xs) k s)
    (hstep : Stepped s x (xs ++ [.run k .none]) next t) : Onward L code next t := by
  obtain ⟨hx, hxs⟩ := forall_mem_cons.mp h.tasks
  obtain ⟨hc, hq | ⟨ht, hg, new, rfl, hnew⟩⟩ := h.valid.stepped (inner_of_onTask hx) (by simp) hstep
  · exact .inl hq
  · have hK : Known t = Known s := known_congr hc hg
    refine .inr ⟨new ++ (x.later ++ xs), k, by simp, ht, ?_, by rw [hK]; exact h.ahead, by rw [hK]; exact h.given⟩
    grind [later_of_onTask]

/-- What the program gives next is there after the step. -/
theorem Keeping.on (h : Keeping L code [] (i :: is) s)
    (ht : Valid L t) (hK : ∀ r, Known s r ∨ gives? i = some r → Known t r) (his : Orderly L D is)
    (hD : ∀ r, D r → Known s r ∨ gives? i = some r) : Keeping L code [] is t := by
  refine ⟨ht, nofun, his.mono fun r hr => hK r (hD r hr), fun r hr => ?_⟩
  obtain hr | hr := h.given r hr
  · exact .inl (hK r (.inl hr))
  · exact (gives_cons.mp hr).imp_left fun hr => hK r (.inr hr)

theorem Keeping.step_bottom (h : Keeping L code [] k s) (hstep : Stepped s (.run k .none) [] next t) :
    Onward L code next t := by
  have hplain {i : Instruction} {is : List Instruction} {D : Ref → Prop} (h : Keeping L code [] (i :: is) s)
      (hi : isInner i = false) (hmethod : ∀ hash name, i ≠ .beginMethod hash name) (hhalt : i ≠ .halt)
      (his : Orderly L D is) (hD : ∀ r, D r → Known s r ∨ gives? i = some r)
      (hstep : Stepped s (.run (i :: is) .none) [] next t) : Onward L code next t := by
    cases hstep with
    | performed _ hp =>
      obtain ⟨ht, hK⟩ := h.valid.performed hi hp
      exact .inr ⟨[], is, rfl, h.on ht hK his hD⟩
    | halted => exact absurd rfl hhalt
    | defined => exact absurd rfl (hmethod _ _)
    | returned hret => obtain rfl | rfl := hret <;> cases hi
    | supplied hw => cases hi.symm.trans (isInner_of_wants hw)
  have hahead := h.ahead
  cases hahead with
  | nil =>
    cases hstep with
    | ended => exact .inl ⟨none, rfl⟩
    | supplied hw => cases hw
  | halt =>
    cases hstep with
    | halted => exact .inl ⟨none, rfl⟩
    | performed hi => cases hi
    | returned hi => obtain hi | hi := hi <;> cases hi
    | supplied hw => cases hw
  | @inner _ i is hi hret his =>
    have hlater : (Task.run (i :: is) .none).later = [.run is .none] := by simp [Task.later, hret]
    obtain ⟨hc, hq | ⟨ht, hg, new, rfl, hnew⟩⟩ := h.valid.stepped (x := .run (i :: is) .none)
      hi (by simp [hlater]) hstep
    · exact .inl hq
    · have hK : Known t = Known s := known_congr hc hg
      refine .inr ⟨new, is, by rw [hlater]; rfl, ht, hK.symm ▸ hnew, by rw [hK]; exact his, fun r hr => ?_⟩
      rw [hK]
      obtain hr | hr := h.given r hr
      · exact .inl hr
      · refine .inr ((gives_cons.mp hr).resolve_left fun hr => ?_)
        exact not_gives_of_asks (c := [i]) (by simpa using hi) r (gives_cons.mpr (.inl hr))
  | @gives _ i is r hi his =>
    refine hplain h (by cases i <;> first | rfl | cases hi) (fun _ _ he => ?_) (fun he => ?_) his
      (fun x => Or.imp_right fun hx : x = r => hx ▸ hi) hstep
    · cases he ▸ hi
    · cases he ▸ hi
  | field id name his => exact hplain h rfl nofun nofun his (fun _ => .inl) hstep
  | @link _ i is hi _ his =>
    refine hplain h (by cases i <;> first | rfl | cases hi) (fun _ _ he => ?_) (fun he => ?_) his (fun _ => .inl) hstep
    · cases he ▸ hi
    · cases he ▸ hi
  | @method _ body is hash name hb his =>
    cases hstep with
    | performed hi => cases hi
    | returned hi => obtain hi | hi := hi <;> cases hi
    | supplied hw => cases hw
    | defined hdef =>
      obtain ⟨hdrop, htake⟩ := dropWhile_body (fun i hi => (hb i hi).isEnd) is
      obtain ⟨⟨i, hi⟩, c, k, -, hk, rfl⟩ := hdef
      rw [hdrop] at hi
      cases hi
      rw [htake]
      have ht := h.valid.addMethod hk hash (m := ⟨name, .code body⟩) hb
      refine .inr ⟨[], is, rfl, ht, nofun, his.mono fun r hr => known_putClass _ hr, fun r hr => ?_⟩
      obtain hr | hr := h.given r hr
      · exact .inl (known_putClass _ hr)
      · obtain hr | hr := gives_append.mp ((gives_cons.mp hr).resolve_left nofun)
        · exact absurd hr (not_gives_of_asks hb r)
        · exact .inr ((gives_cons.mp hr).resolve_left nofun)

theorem Keeping.step (h : Keeping L code xs k s)
    (hstep : Machine.step (xs ++ [.run k .none]) s = .ok next t) : Onward L code next t := by
  cases xs with
  | nil => exact h.step_bottom ((yields_step _ _).ok hstep)
  | cons x xs => exact h.step_inner ((yields_step _ _).ok hstep)

theorem Orderly.asks (h : Orderly L D (i :: is)) : ∀ r ∈ refs i, D r ∨ L r := by
  cases h with
  | inner hi =>
    obtain ⟨-, hr, -⟩ := hi
    exact hr
  | gives hi =>
    cases i with
    | declareClass | storeGlobal => exact nofun
    | _ => cases hi
  | link _ hr => exact hr
  | halt | field | method => exact nofun

theorem Keeping.missing (h : Keeping L code xs k s)
    (hstep : Machine.step (xs ++ [.run k .none]) s = .error e t) (hr : e.missing? = some r) : L r ∧ ¬ Known s r := by
  cases xs with
  | nil =>
    refine h.valid.missing ((yields_step _ _).error hstep) (fun {i is calls} hx => ?_) hr
    cases hx
    exact h.ahead.asks
  | cons x xs =>
    refine h.valid.missing ((yields_step _ _).error hstep) (fun {i is calls} hx => ?_) hr
    subst hx
    obtain ⟨-, hrefs, -⟩ := (h.tasks _ mem_cons_self).1 i mem_cons_self
    exact hrefs

theorem keeping_fresh (h : Orderly L (fun _ => False) code) (depth : Nat) : Keeping L code [] code (.fresh depth) where
  valid := ⟨nofun, ⟨nofun, nofun, nofun, nofun, nofun, by simp [State.fresh], True.intro⟩, nofun, rfl⟩
  tasks := nofun
  ahead := h.mono fun _ => False.elim
  given _ hr := .inr hr

theorem keeping_of_reaches (h : Orderly L (fun _ => False) code) {depth : Nat}
    (hr : Reaches [.run code .none] (.fresh depth) ts s) :
    ∃ xs k, ts = xs ++ [.run k .none] ∧ Keeping L code xs k s := by
  induction hr with
  | refl => exact ⟨[], code, rfl, keeping_fresh h depth⟩
  | step _ hstep ih =>
    obtain ⟨xs, k, rfl, hkeep⟩ := ih
    obtain ⟨q, hq⟩ | ⟨ys, k', hgo, hkeep'⟩ := hkeep.step hstep
    · cases hq
    · cases hgo
      exact ⟨ys, k', rfl, hkeep'⟩

/-- What a program lacks is one of what may come later, and still to come if the program gives it at all. -/
theorem missing_ahead (h : Orderly L (fun _ => False) code) {depth : Nat}
    (hr : Reaches [.run code .none] (.fresh depth) ts s) (he : step ts s = .error e t)
    (hm : e.missing? = some r) : L r ∧ ∃ xs k, ts = xs ++ [.run k .none] ∧ (Gives code r → Gives k r) := by
  obtain ⟨xs, k, rfl, hkeep⟩ := keeping_of_reaches h hr
  obtain ⟨hlater, hunknown⟩ := hkeep.missing he hm
  exact ⟨hlater, xs, k, rfl, fun hgives => (hkeep.given r hgives).resolve_left hunknown⟩

end Parlance.Machine
