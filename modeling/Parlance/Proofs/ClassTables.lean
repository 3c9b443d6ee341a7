import Parlance.Proofs.NameOrder
/-!
The methods that classes hold: a method replaces the one that a class has, one that is inherited does not.
-/
namespace Parlance.Machine

open List

/-! ### Declarations -/

inductive Decl where
  | cls (id : UInt64) (name : Bytes)
  | mark (m : Mark) (id : UInt64)
  | field (id : UInt64) (name : Bytes)
  | method (hash : UInt64) (name : Bytes) (body : List Instruction)
  | inherit (source target hash : UInt64)

def Decl.code : Decl → List Instruction
  | cls id name => [.declareClass id name]
  | mark m id => [.markClass m id]
  | field id name => [.declareVariable id name]
  | method hash name body => .beginMethod hash name :: (body ++ [.endMethod])
  | inherit source target hash => [.inheritMethod source target hash]

def Decl.IsClosed : Decl → Prop
  | method _ _ body => ∀ i ∈ body, isEnd i = false
  | _ => True

/-- The methods of all classes, by the hashes of their selectors, and the class that is being declared. -/
@[ext]
structure Table where
  holds : UInt64 → UInt64 → Option Method
  declaring : Option UInt64

namespace Table

def empty : Table := ⟨fun _ _ => none, none⟩

def put (t : Table) (id hash : UInt64) (m : Method) : Table :=
  { t with holds := fun i h => if i = id ∧ h = hash then some m else t.holds i h }

@[simp] theorem holds_put_self (t : Table) (id hash : UInt64) (m : Method) :
    (t.put id hash m).holds id hash = some m := by simp [put]

theorem holds_put_of_ne (t : Table) {id hash i h : UInt64} (m : Method) (hne : i ≠ id ∨ h ≠ hash) :
    (t.put id hash m).holds i h = t.holds i h := by grind [put]

end Table

def State.table (s : State) : Table :=
  ⟨fun id hash => (s.classes.lookup id).bind (·.method? hash), s.declaring⟩

/-- What a declaration makes of a table. -/
inductive Changes : Decl → Table → Table → Prop where
  | cls (t : Table) (id : UInt64) (name : Bytes) : Changes (.cls id name) t { t with declaring := some id }
  | mark (t : Table) (m : Mark) (id : UInt64) : Changes (.mark m id) t t
  | field {t : Table} {c} (id : UInt64) (name : Bytes) (hc : t.declaring = some c) (getter setter : Method) :
    Changes (.field id name) t ((t.put c (Selector.hash name) getter).put c (Selector.hash (name ++ [58])) setter)
  | method {t : Table} {c} (hash : UInt64) (name : Bytes) (body : List Instruction) (hc : t.declaring = some c) :
    Changes (.method hash name body) t (t.put c hash ⟨name, .code body⟩)
  | inherit {t : Table} {source target hash m} (hm : t.holds source hash = some m) (hno : t.holds target hash = none) :
    Changes (.inherit source target hash) t (t.put target hash m)
  | keep {t : Table} {source target hash m} (hm : t.holds target hash = some m) :
    Changes (.inherit source target hash) t t

inductive ChangesAll : List Decl → Table → Table → Prop where
  | nil (t : Table) : ChangesAll [] t t
  | cons {d ds t u v} (h : Changes d t u) (hs : ChangesAll ds u v) : ChangesAll (d :: ds) t v

theorem ChangesAll.append {ds es : List Decl} {t u v : Table} (h : ChangesAll ds t u) (hs : ChangesAll es u v) :
    ChangesAll (ds ++ es) t v := by
  induction h with
  | nil => exact hs
  | cons hd _ ih => exact .cons hd (ih hs)

theorem changesAll_append {ds es : List Decl} {t v : Table} :
    ChangesAll (ds ++ es) t v ↔ ∃ u, ChangesAll ds t u ∧ ChangesAll es u v := by
  constructor
  · intro h
    induction ds generalizing t with
    | nil => exact ⟨t, .nil t, h⟩
    | cons d ds ih =>
      cases h with
      | cons hd h =>
        obtain ⟨u, hu, hv⟩ := ih h
        exact ⟨u, .cons hd hu, hv⟩
  · rintro ⟨u, hu, hv⟩
    exact hu.append hv

/-! ### Steps -/

variable {s t : State} {next : Next} {depth : Nat}

theorem method?_addMethod (c : Class) (hash h : UInt64) (m : Method) :
    (c.addMethod hash m).method? h = if h = hash then some m else c.method? h := by
  show List.lookup h ((hash, m) :: c.methods) = if _ then _ else c.methods.lookup h
  grind

theorem holds_putClass (s : State) (c : Class) (i h : UInt64) :
    (State.table { s with classes := replaceClass c s.classes }).holds i h =
      if i = c.ref.id then c.method? h else s.table.holds i h := by
  show ((replaceClass c s.classes).lookup i).bind (·.method? h) = _
  rw [lookup_replaceClass]
  split
  · rfl
  · rfl

theorem table_addMethod {c : Class} {id : UInt64} (hc : s.classes.lookup id = some c) (hid : c.ref.id = id)
    (hash : UInt64) (m : Method) :
    State.table { s with classes := replaceClass (c.addMethod hash m) s.classes } = s.table.put id hash m := by
  refine Table.ext (funext fun i => funext fun h => ?_) rfl
  have hholds (h : UInt64) : s.table.holds id h = c.method? h := by simp [State.table, hc]
  rw [holds_putClass, method?_addMethod]
  show (if i = c.ref.id then _ else _) = if i = id ∧ h = hash then some m else s.table.holds i h
  grind

def State.Filed (s : State) : Prop := ∀ e ∈ s.classes, e.2.ref.id = e.1

theorem State.Filed.ref_id (h : s.Filed) {id : UInt64} {c : Class} (hc : s.classes.lookup id = some c) :
    c.ref.id = id := h _ (mem_of_lookup hc)

theorem changes_performed {d : Decl} {i : Instruction} {calls : Calls} (hd : d.code = [i]) (hs : s.Filed)
    (h : Performed calls s i t) : Changes d s.table t.table := by
  cases d with
  | method => simp [Decl.code] at hd
  | cls id name =>
    cases hd
    cases h with
    | loaded h => cases h with | constant hp => cases hp
    | reopened => exact .cls s.table id name
    | declared =>
      have hlookup (i h : UInt64) : ((s.classes ++ [(id, Class.mk ⟨id, name⟩ [])]).lookup i).bind (·.method? h) =
          s.table.holds i h := by
        show _ = (s.classes.lookup i).bind (·.method? h)
        rw [lookup_append]
        cases hi : s.classes.lookup i with
        | some c => rfl
        | none =>
          rw [Option.none_or, lookup_cons]
          cases i == id <;> rfl
      refine Eq.subst (motive := Changes _ s.table) ?_ (Changes.cls s.table id name)
      exact Table.ext (funext fun i => funext fun h => (hlookup i h).symm) rfl
  | mark m id =>
    cases hd
    cases h with
    | loaded h => cases h with | constant hp => cases hp
    | marked => exact .mark s.table m id
  | field id name =>
    cases hd
    cases h with
    | loaded h => cases h with | constant hp => cases hp
    | @field _ c _ k hc hk =>
      have hid := hs.ref_id hk
      have hholds (h : UInt64) : s.table.holds c h = k.method? h := by simp [State.table, hk]
      rw [show State.table { s with classes := replaceClass (k.addVariable id name) s.classes } =
        (s.table.put c (Selector.hash name) ⟨k.ref.name ++ 35 :: name, .getter id name⟩).put c
          (Selector.hash (name ++ [58])) ⟨k.ref.name ++ 35 :: name ++ [58], .setter id⟩ from ?_]
      · exact .field id name hc _ _
      · refine Table.ext (funext fun i => funext fun h => ?_) rfl
        rw [holds_putClass, Class.addVariable, method?_addMethod, method?_addMethod]
        show (if i = k.ref.id then _ else _) = if i = c ∧ _ then _ else if i = c ∧ _ then _ else s.table.holds i h
        grind
  | inherit source target hash =>
    cases hd
    cases h with
    | loaded h => cases h with | constant hp => cases hp
    | inherited hparent hheir hm hno =>
      rw [table_addMethod hheir (hs.ref_id hheir)]
      exact .inherit (by simp [State.table, hparent, hm]) (by simp [State.table, hheir, hno])
    | @kept _ _ _ _ m hheir hm => exact .keep (m := m) (by simp [State.table, hheir, hm])

theorem changes_step {d : Decl} {k : List Instruction} (hd : d.IsClosed) (hs : s.Filed)
    (h : step [.run (d.code ++ k) .none] s = .ok next t) : next = .go [.run k .none] ∧ Changes d s.table t.table := by
  have hplain {i : Instruction} (hd : d.code = [i]) (hi : isPlain i) : next = .go [.run k .none] ∧
      Changes d s.table t.table := by
    rw [hd, singleton_append, step_plain hi] at h
    obtain ⟨_, u, hperform, h⟩ := bind_ok.mp h
    cases h
    exact ⟨rfl, changes_performed hd hs ((yields_perform hi).ok hperform)⟩
  cases d with
  | cls | mark | field | inherit => exact hplain rfl rfl
  | method hash name body =>
    rw [Decl.code, cons_append, append_assoc, singleton_append] at h
    rw [step, get_bind] at h
    obtain ⟨rest, u, hdefine, hgo⟩ := bind_ok.mp h
    cases hgo
    obtain ⟨hdrop, htake⟩ := dropWhile_body hd k
    obtain ⟨⟨i, hi⟩, c, kls, hc, hk, rfl⟩ := (yields_define hash name _).ok hdefine
    rw [hdrop] at hi
    cases hi
    rw [htake, table_addMethod hk (hs.ref_id hk)]
    exact ⟨rfl, .method hash name body hc⟩

/-! ### Runs -/

/-- A machine with a program that begins with declarations: they are made one after another, and then `After` is
so. -/
inductive Underway (ds : List Decl) (k : List Instruction) (After : List Task → State → Prop) :
    List Task → State → Prop where
  | declaring {done ahead d} {s : State} (hds : ds = done ++ d :: ahead) (h : ChangesAll done .empty s.table) :
    Underway ds k After [.run ((d :: ahead).flatMap Decl.code ++ k) .none] s
  | after {ts s} (h : After ts s) : Underway ds k After ts s

theorem holds_congr (h : t.classes = s.classes) : t.table.holds = s.table.holds := by
  simp only [State.table, h]

variable {L : Ref → Prop} {ds : List Decl} {b : List Instruction}

theorem Orderly.asks_inner {D : Ref → Prop} {i : Instruction} {is : List Instruction} (h : Orderly L D (i :: is))
    (hi : isInner i) : Asks (fun r => D r ∨ L r) i := by
  cases h with
  | inner h => exact h
  | gives h =>
    cases i with
    | declareClass | storeGlobal => cases hi
    | _ => cases h
  | link h =>
    cases i with
    | markClass | inheritMethod => cases hi
    | _ => cases h
  | halt | field | method => cases hi

def IsBinding (i : Instruction) : Prop := isInner i ∧ isReturn i = false ∨ ∃ id, i = .storeGlobal id

theorem Keeping.step_binding {xs : List Task} {k code : List Instruction}
    (hkeep : Keeping L code xs k s) (hb : ∀ i ∈ b, IsBinding i) (hk : k <:+ b)
    (hstep : Machine.step (xs ++ [.run k .none]) s = .ok next t) :
    t.classes = s.classes ∧ ((∃ ys j, next = .go (ys ++ [.run j .none]) ∧ j <:+ b) ∨ ∃ q, next = .finish q) := by
  cases xs with
  | cons x xs =>
    obtain ⟨hc, hq | ⟨-, -, new, rfl, -⟩⟩ := hkeep.valid.stepped (inner_of_onTask (hkeep.tasks x mem_cons_self))
      (by simp) ((yields_step _ _).ok hstep)
    · exact ⟨hc, .inr hq⟩
    · exact ⟨hc, .inl ⟨new ++ (x.later ++ xs), k, by simp, hk⟩⟩
  | nil =>
    cases k with
    | nil =>
      cases hstep
      exact ⟨rfl, .inr ⟨none, rfl⟩⟩
    | cons i is =>
      have his : is <:+ b := (suffix_cons i is).trans hk
      replace hstep := (yields_step _ _).ok hstep
      obtain ⟨hinner, hret⟩ | ⟨id, rfl⟩ := hb i (hk.subset mem_cons_self)
      · have hlater : (Task.run (i :: is) .none).later = [.run is .none] := by simp [Task.later, hret]
        obtain ⟨hc, hq | ⟨-, -, new, rfl, -⟩⟩ := hkeep.valid.stepped (x := .run (i :: is) .none)
          (hkeep.ahead.asks_inner hinner) (by simp [hlater]) hstep
        · exact ⟨hc, .inr hq⟩
        · grind
      · cases hstep with
        | returned hi => obtain hi | hi := hi <;> cases hi
        | supplied hw => cases hw
        | performed _ h =>
          cases h with
          | loaded h => cases h with | constant hp => cases hp
          | stored => exact ⟨rfl, .inl ⟨[], is, rfl, his⟩⟩

theorem underway_of_reaches {After : List Task → State → Prop}
    (horder : Orderly L (fun _ => False) (ds.flatMap Decl.code ++ b)) (hds : ∀ d ∈ ds, d.IsClosed)
    (hafter : ∀ s : State, ChangesAll ds .empty s.table → After [.run b .none] s)
    (hkeep : ∀ {ts us : List Task} {s t : State}, Reaches [.run (ds.flatMap Decl.code ++ b) .none] (.fresh depth) ts s →
      After ts s → step ts s = .ok (.go us) t → After us t) {ts : List Task}
    (hr : Reaches [.run (ds.flatMap Decl.code ++ b) .none] (.fresh depth) ts s) : Underway ds b After ts s := by
  have hgoes {done ahead : List Decl} {s : State} (hsplit : ds = done ++ ahead) (h : ChangesAll done .empty s.table) :
      Underway ds b After [.run (ahead.flatMap Decl.code ++ b) .none] s := by
    cases ahead with
    | nil =>
      rw [append_nil] at hsplit
      exact .after (hafter s (hsplit ▸ h))
    | cons d ahead => exact .declaring hsplit h
  induction hr with
  | refl => exact hgoes (nil_append ds).symm (.nil _)
  | step hr hstep ih =>
    obtain ⟨xs, j, -, hvalid⟩ := keeping_of_reaches horder hr
    cases ih with
    | after h => exact .after (hkeep hr h hstep)
    | @declaring done ahead d _ hsplit h =>
      rw [flatMap_cons, append_assoc] at hstep
      obtain ⟨hgo, hchanges⟩ := changes_step (hds d (by simp [hsplit])) hvalid.valid.refs hstep
      cases hgo
      have hrest : ds = (done ++ [d]) ++ ahead := by rw [hsplit, append_assoc, singleton_append]
      exact hgoes hrest (h.append (.cons hchanges (.nil _)))

/-- Bindings are being worked out, and the classes are as declared. -/
def Binding (ds : List Decl) (b : List Instruction) (ts : List Task) (s : State) : Prop :=
  ∃ xs k u, ts = xs ++ [.run k .none] ∧ k <:+ b ∧ ChangesAll ds .empty u ∧ s.table.holds = u.holds

theorem Binding.step {ts : List Task} (horder : Orderly L (fun _ => False) (ds.flatMap Decl.code ++ b))
    (hb : ∀ i ∈ b, IsBinding i)
    (hr : Reaches [.run (ds.flatMap Decl.code ++ b) .none] (.fresh depth) ts s) (h : Binding ds b ts s)
    (hstep : Machine.step ts s = .ok next t) : (∃ us, next = .go us ∧ Binding ds b us t) ∨
      ∃ q u, next = .finish q ∧ ChangesAll ds .empty u ∧ t.table.holds = u.holds := by
  obtain ⟨ys, j, hys, hkeep⟩ := keeping_of_reaches horder hr
  obtain ⟨xs, k, u, hts, hk, h, hu⟩ := h
  obtain ⟨rfl, htasks⟩ := append_inj' (hys.symm.trans hts) rfl
  cases htasks
  rw [hts] at hstep
  obtain ⟨hc, ⟨zs, i, rfl, hi⟩ | ⟨q, rfl⟩⟩ := hkeep.step_binding hb hk hstep
  · exact .inl ⟨_, rfl, zs, i, u, rfl, hi, h, (holds_congr hc).trans hu⟩
  · exact .inr ⟨q, u, rfl, h, (holds_congr hc).trans hu⟩

/-- When a program of declarations and bindings has come to its end, its classes hold what was declared. -/
theorem table_of_eval (horder : Orderly L (fun _ => False) (ds.flatMap Decl.code ++ b))
    (hds : ∀ d ∈ ds, d.IsClosed) (hb : ∀ i ∈ b, IsBinding i)
    (h : eval (ds.flatMap Decl.code ++ b) (.fresh depth) = .ok () t) :
    ∃ u, ChangesAll ds .empty u ∧ t.table.holds = u.holds := by
  have heval : eval (ds.flatMap Decl.code ++ b) (.fresh depth) =
      (report (iterate step patience [.run (ds.flatMap Decl.code ++ b) .none]) >>= fun _ => pure ())
        (.fresh depth) := rfl
  rw [heval] at h
  obtain ⟨q, v, hreport, h⟩ := bind_ok.mp h
  cases h
  unfold report at hreport
  split at hreport
  · cases hreport
  · obtain ⟨us, u, hreach, hstep⟩ := (yields_iterate _ _).ok hreport
    have hunderway : Underway ds b (Binding ds b) us u := by
      refine underway_of_reaches horder hds (fun s h => ⟨[], b, _, rfl, suffix_refl b, h, rfl⟩) ?_ hreach
      intro ts us s t hr h hstep
      rcases h.step horder hb hr hstep with ⟨us, hgo, h⟩ | ⟨q, u, hfinish, -⟩
      · cases hgo
        exact h
      · cases hfinish
    cases hunderway with
    | declaring hsplit h =>
      rw [flatMap_cons, append_assoc] at hstep
      obtain ⟨xs, j, -, hvalid⟩ := keeping_of_reaches horder hreach
      cases (changes_step (hds _ (by simp [hsplit])) hvalid.valid.refs hstep).1
    | after h =>
      rcases h.step horder hb hreach hstep with ⟨us, hgo, -⟩ | ⟨q, u, -, hchanges, hu⟩
      · cases hgo
      · exact ⟨u, hchanges, hu⟩

end Parlance.Machine
