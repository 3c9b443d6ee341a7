import Parlance.Proofs.BuildGate
import Parlance.Proofs.Entries
import Parlance.Proofs.ProgramCode
import Parlance.Proofs.Rounding
import Parlance.World.Desk
/-!
Programs that are kept from one build to the next. Whatever the disk does, a build answers what it or an
earlier build of the same sources would have answered with nothing kept.
-/
open List

namespace Parlance

/-! ### Code that can be kept -/

namespace Instruction

@[simp] theorem areProper_singleton (i : Instruction) : areProper [i] = i.isProper := by
  rw [areProper, areProper, Bool.and_true]

end Instruction

namespace Lowering

variable {c : List Instruction}

open Instruction

variable {p : Program} {K : Instruction → Prop}

theorem isProper_floatConst (c : NumberClass) (v : Rat) : (floatConst c v).isProper := by
  have hlt (w : Binary.Width) : Binary.round w v < 2 * Binary.signBit w :=
    Binary.withSign_lt (Binary.roundMagnitude_le ..) _
  unfold floatConst
  split
  · rw [isProper, bne_iff_ne, Nat.toUInt32_eq, UInt32.toNat_ofNat_of_lt' (hlt .single)]
    exact Binary.decode_round_ne_nan .single v
  · rw [isProper, bne_iff_ne, Nat.toUInt64_eq, UInt64.toNat_ofNat_of_lt' (hlt .double)]
    exact Binary.decode_round_ne_nan .double v
  · rfl

theorem Fixed.isProper {n : Node} {i : Instruction} (h : Fixed p n i) : i.isProper := by
  cases h with
  | @character w v hn => grind [Instruction.isProper, UInt32.lt_iff_toNat_lt]
  | integer hn hi =>
    obtain ⟨⟨w, rfl⟩ | ⟨c, rfl⟩, -⟩ := integer_code hi
    · rfl
    · exact isProper_floatConst c _
  | float hn hi =>
    obtain ⟨⟨c, rfl⟩, -⟩ := float_code hi
    exact isProper_floatConst c _
  | _ => rfl

theorem Lowered.areProper {part : Part} {f g : Frame} (h : Lowered p part f c g) : areProper c := by
  induction h with
  | fixed _ hi => rw [areProper_singleton, hi.isProper]
  | _ => simp_all [Instruction.areProper, Instruction.isProper, callFrom]

theorem Answers.areProper {sel : String} (h : Answers p sel c) : areProper c := by
  have hsetters (as : List Forest.Assignment) :
      Instruction.areProper (as.map fun a => callFrom (a.name ++ ":") a.keyword) := by
    induction as with
    | nil => rfl
    | cons a as ih => exact ih
  cases h with
  | body _ _ _ hc _ => simp [hc.areProper, Instruction.isProper]
  | native _ _ _ => rfl
  | unimplemented _ _ => rfl
  | initializer _ _ _ _ hvalues _ => simp [Instruction.areProper, hvalues.areProper, hsetters, Instruction.isProper]

theorem Segment.areProper (h : Segment p K c) : areProper c := by
  cases h with
  | @declare i hi _ => cases i <;> first | rfl | cases hi
  | field => rfl
  | method name h => simp [Instruction.areProper, Instruction.isProper, h.areProper]
  | binding id _ hc => simp [hc.areProper, Instruction.isProper]
  | statement _ hc => exact hc.areProper

theorem Stream.areProper (h : Stream p K c) : areProper c := by
  induction h with
  | nil => rfl
  | cons h _ ih => rw [areProper_append, h.areProper, ih]; rfl

theorem areProper_whole (hp : p.Grown) {s t : State} (h : Yields (whole p) s c t) : areProper c := by
  obtain ⟨k, rfl, hk⟩ := stream_whole hp h
  rw [areProper_append, hk.areProper]
  rfl

end Lowering

/-! ### What a disk holds -/

namespace Disk

variable {at_ parts : List String} {d' : Disk}

def HasFile (d : Disk) (s : Bytes) : Prop := ∃ path, (path, Item.file s) ∈ d

variable {d : Disk} {s : Bytes}

theorem HasFile.of_put {i : Item} (h : (d.put at_ i).HasFile s) : d.HasFile s ∨ i = .file s := by
  obtain ⟨path, h⟩ := h
  rcases mem_append.mp h with h | h
  · exact .inl ⟨path, (mem_filter.mp h).1⟩
  · grind

theorem HasFile.of_drop (h : (d.drop at_).HasFile s) : d.HasFile s := by
  obtain ⟨path, h⟩ := h
  exact ⟨path, (mem_filter.mp h).1⟩

theorem hasFile_of_item? (h : d.item? at_ = some (.file s)) : d.HasFile s := by
  unfold item? at h
  split at h
  · cases h
  · exact ⟨at_, mem_of_lookup h⟩

theorem hasFile_of_find (h : d.find parts = .ok (.file s)) : d.HasFile s := by
  obtain ⟨at_, -, h⟩ := Wire.bind_eq_ok.mp h
  grind [hasFile_of_item?]

theorem hasFile_of_content (h : d.content parts = .ok s) : d.HasFile s := by
  obtain ⟨i, hi, h⟩ := Wire.bind_eq_ok.mp h
  grind [hasFile_of_find]

theorem HasFile.of_write {t : Bytes} (hw : d.write parts t = .ok d') (h : d'.HasFile s) : d.HasFile s ∨ s = t := by
  obtain ⟨at_, -, hw⟩ := Wire.bind_eq_ok.mp hw
  split at hw
  · cases hw
  · cases hw
    rcases h.of_put with h | h
    · exact .inl h
    · exact .inr (Item.file.inj h).symm

theorem HasFile.of_makeFolder (hm : d.makeFolder parts = .ok d') (h : d'.HasFile s) : d.HasFile s := by
  obtain ⟨at_, -, hm⟩ := Wire.bind_eq_ok.mp hm
  split at hm
  · cases hm
  · cases hm
    rcases h.of_put with h | h
    · exact h
    · cases h

theorem HasFile.of_rename {old new : List String} (hr : d.rename old new = .ok d')
    (h : d'.HasFile s) : d.HasFile s := by
  obtain ⟨i, hi, hr⟩ := Wire.bind_eq_ok.mp hr
  obtain ⟨target, -, hr⟩ := Wire.bind_eq_ok.mp hr
  split at hr
  · cases hr
  · obtain ⟨at_, -, hr⟩ := Wire.bind_eq_ok.mp hr
    cases hr
    rcases h.of_put with h | h
    · exact h.of_drop
    · exact hasFile_of_find (h ▸ hi)

theorem HasFile.of_remove (h : (d.remove parts).HasFile s) : d.HasFile s := by
  unfold remove at h
  split at h
  · exact h.of_drop
  · exact h

end Disk

namespace Desk

def Holds (P : Bytes → Prop) (d : Desk) : Prop := ∀ s, d.disk.HasFile s → P s

variable {P : Bytes → Prop} {α : Type} {path : String}

theorem holds_fresh (here : String) : (fresh here).Holds P := by
  rintro s ⟨path, h⟩
  obtain ⟨i, -, hi⟩ := mem_map.mp h
  cases hi

theorem keeps_ask {f : Disk → List String → Except Trouble α} :
    Keeps (Holds P) (ask path f) fun r => ∀ a, r = .ok a → ∃ d : Desk, d.Holds P ∧ ∃ parts, f d.disk parts = .ok a := by
  intro d hd
  refine ⟨fun a ha => ?_, hd⟩
  change (if path = "" then _ else _) = _ at ha
  split at ha
  · cases ha
  · exact ⟨d, hd, _, ha⟩

theorem keeps_change {f : Disk → List String → Except Trouble Disk}
    (hf : ∀ (d : Desk) (parts : List String) (d' : Disk), d.Holds P → f d.disk parts = .ok d' →
      ∀ s, d'.HasFile s → P s) : Keeps (Holds P) (change path f) fun _ => True := by
  refine keeps_ask.bind fun r hr => ?_
  cases r with
  | error t => exact .pure trivial
  | ok disk =>
    obtain ⟨d, hd, parts, h⟩ := hr disk rfl
    exact fun _ _ => ⟨trivial, hf d parts disk hd h⟩

theorem keeps_isFolder (path : String) :
    Keeps (Holds P) (World.isFolder path : OnDesk (Except Trouble Bool)) fun _ => True :=
  keeps_ask.mono fun _ _ => trivial

theorem keeps_read (path : String) :
    Keeps (Holds P) (World.read path : OnDesk (Except Trouble Bytes)) fun r => ∀ s, r = .ok s → P s :=
  keeps_ask.mono fun _ hr s hs => by
    obtain ⟨d, hd, parts, h⟩ := hr s hs
    exact hd s (Disk.hasFile_of_content h)

theorem keeps_write (path : String) {s : Bytes} (hs : P s) :
    Keeps (Holds P) (World.write path s : OnDesk (Except Trouble Unit)) fun _ => True :=
  keeps_change fun d parts d' hd hw t ht => by
    rcases ht.of_write hw with ht | rfl
    · exact hd t ht
    · exact hs

theorem keeps_makeFolder (path : String) :
    Keeps (Holds P) (World.makeFolder path : OnDesk (Except Trouble Unit)) fun _ => True :=
  keeps_change fun _ _ _ hd hm t ht => hd t (ht.of_makeFolder hm)

theorem keeps_rename (old new : String) :
    Keeps (Holds P) (World.rename old new : OnDesk (Except Trouble Unit)) fun _ => True := by
  intro d hd
  have hchange : Keeps (Holds P) (change old fun e parts => e.rename parts (d.parts new)) fun _ => True :=
    keeps_change fun _ _ _ hd hr t ht => hd t (ht.of_rename hr)
  exact hchange d hd

theorem keeps_remove (path : String) : Keeps (Holds P) (World.remove path : OnDesk Unit) fun _ => True :=
  fun _ hd => ⟨trivial, fun t ht => hd t ht.of_remove⟩

theorem keeps_lift_bind {β ε : Type} {x : OnDesk α} {f : α → World.Try OnDesk ε β} {Q : α → Prop}
    {R : Except ε β → Prop} (hx : Keeps (Holds P) x Q) (hf : ∀ a, Q a → Keeps (Holds P) (f a).run R) :
    Keeps (Holds P) (ExceptT.lift x >>= f : World.Try OnDesk ε β).run R :=
  fun d hd => hf _ (hx d hd).1 _ (hx d hd).2

/-- A step that may fail keeps the files in order either way. -/
def Tidy {ε : Type} (P : Bytes → Prop) (x : World.Try OnDesk ε α) : Prop := Keeps (Holds P) x.run fun _ => True

namespace Tidy

variable {β ε ε' : Type}

theorem pure (a : α) : Tidy P (Pure.pure a : World.Try OnDesk ε α) := Keeps.pure trivial

theorem throw (e : ε) : Tidy P (MonadExcept.throw e : World.Try OnDesk ε α) := Keeps.pure trivial

theorem bind {x : World.Try OnDesk ε α} {f : α → World.Try OnDesk ε β} (hx : Tidy P x) (hf : ∀ a, Tidy P (f a)) :
    Tidy P (x >>= f) :=
  show Keeps (Holds P) (x.run >>= ExceptT.bindCont f) fun _ => True from
    Keeps.bind hx fun r _ => match r with
      | .ok a => hf a
      | .error _ => Keeps.pure trivial

theorem lift {x : OnDesk α} (hx : Keeps (Holds P) x fun _ => True) : Tidy P (ExceptT.lift x : World.Try OnDesk ε α) :=
  Keeps.map hx fun _ _ => trivial

theorem attempt {x : OnDesk (Except Trouble α)} (hx : Keeps (Holds P) x fun _ => True) (act path : String) :
    Tidy P (World.attempt act path x) := by
  refine bind (lift hx) fun r => ?_
  grind [pure, throw]

theorem makeFolders (path : String) : Tidy P (World.makeFolders path : World.Try OnDesk FileError Unit) := by
  unfold World.makeFolders
  refine bind ?_ fun _ => pure ()
  generalize World.ancestors path = folders
  induction folders with
  | nil => exact pure _
  | cons folder folders ih =>
    rw [forIn_cons]
    refine bind (bind (lift (keeps_isFolder folder)) fun r => ?_) fun step => ?_
    · grind [pure, bind, throw, attempt, keeps_makeFolder]
    · grind [pure]

theorem explain {x : World.Try OnDesk FileError α} (why : FileError → ε) (hx : Tidy P x) :
    Tidy P (Project.explain why x) := by
  refine bind (lift hx) fun r => ?_
  grind [pure, throw]

theorem replaceFile (beside path : String) {s : Bytes} (hs : P s) :
    Tidy P (World.replaceFile beside path s : World.Try OnDesk FileError Unit) :=
  bind (attempt (keeps_write beside hs) _ _) fun _ => attempt (keeps_rename beside path) _ _

end Tidy

end Desk

/-! ### What is kept -/

namespace Store

open Desk

variable {format : Format}

/-- The file holds nothing but programs that are known under their keys. -/
def Honest (format : Format) (known : Digest → Built → Prop) (s : Bytes) : Prop :=
  ∀ key b, format.find? key s = some (some b) → known key b

variable {known : Digest → Built → Prop}

theorem keeps_load (s : Store format) (key : Digest) :
    Keeps (Holds (Honest format known)) (s.load key : World.Try OnDesk Fault (Option Built)).run
      fun r => ∀ b, r = .ok (some b) → known key b := by
  have hread : Keeps (Holds (Honest format known)) (World.readFile (s.file key) : World.Try OnDesk FileError Bytes).run
      fun r => ∀ content, r = .ok content → Honest format known content := by
    refine keeps_lift_bind (keeps_read _) fun r hr => ?_
    cases r with
    | ok content => grind [Keeps.pure]
    | error t => exact Keeps.pure nofun
  refine keeps_lift_bind hread fun r hr => ?_
  cases r with
  | error e => grind [Keeps.pure]
  | ok content =>
    have hhonest := hr content rfl key
    grind [Keeps.pure]

theorem tidy_save (hl : format.Lawful) (s : Store format) {key : Digest} {b : Built}
    (hp : Instruction.areProper b.code) (hknown : known key b) :
    Tidy (Honest format known) (s.save key b : World.Try OnDesk Fault Unit) := by
  unfold save
  cases hw : format.write key b with
  | error u => exact Keeps.pure trivial
  | ok content =>
    have hhonest : Honest format known content := by
      intro key' b' hf
      obtain ⟨rfl, rfl⟩ := hl hp hw hf
      exact hknown
    simp only [pure_bind]
    refine .bind (.explain _ (.makeFolders _)) fun _ => ?_
    refine .bind (.lift (Tidy.replaceFile _ _ hhonest)) fun r => ?_
    cases r with
    | ok _ => exact .pure ()
    | error e => exact .bind (.lift (keeps_remove _)) fun _ => .throw _

end Store

/-! ### One build after another -/

namespace Build

structure Answer where
  failure : Option Progress.Failure
  diagnostics : List Diagnostic
  code : List Instruction

def Outcome.answer (o : Outcome) : Answer := ⟨o.failure, o.diagnostics, o.code⟩

theorem hit_made (max : Int) (ss : List Source) : (made max ss).hit = false := by
  unfold made
  simp only
  split
  · rfl
  · split <;> rfl

variable {max : Int} {ss : List Source}

theorem parsed_of_no_errors (h : Diagnostic.hasErrors (Diagnostic.sort (Diagnostic.cap max (remarks ss))) = false) :
    ∀ s ∈ ss, Diagnostic.hasErrors (s.parse none).remarks = false := by
  rw [Diagnostic.hasErrors_sort] at h
  intro s hs
  have hnone : (ss.map (·.parse none)).flatMap (·.remarks) = [] := by
    cases hearly : (ss.map (·.parse none)).flatMap (·.remarks) with
    | nil => rfl
    | cons d ds =>
      obtain ⟨doc, hdoc, hd⟩ := mem_flatMap.mp (hearly ▸ mem_cons_self : d ∈ _)
      obtain ⟨t, -, rfl⟩ := mem_map.mp hdoc
      have hremarks : remarks ss = (ss.map (·.parse none)).flatMap (·.remarks) ++ _ := rfl
      rw [hremarks, hearly, cons_append, Diagnostic.hasErrors_cap_cons (t.allErrors_parse none d hd)] at h
      cases h
  rw [flatMap_eq_nil_iff.mp hnone _ (mem_map_of_mem hs)]
  rfl

theorem areProper_made (max : Int) (ss : List Source) : Instruction.areProper (made max ss).code := by
  unfold made
  simp only
  split
  · rfl
  · rename_i hclean
    split
    · rfl
    · rename_i code hcode
      have hgrown := Program.grown_of_no_errors (parsed_of_no_errors (Bool.not_eq_true _ ▸ hclean))
      exact Lowering.areProper_whole hgrown (Prod.ext hcode rfl)

/-- The remarks decide about everything that depends on how many of them are kept. -/
theorem answer_made {max' : Int} (h : Diagnostic.cap max (remarks ss) = Diagnostic.cap max' (remarks ss)) :
    (made max ss).answer = (made max' ss).answer := by
  unfold made
  rw [h]

end Build

namespace Store

variable {c : Call} {format : Format}

open Desk Build

structure Call where
  max : Int
  sources : List Source

namespace Call

def alone (c : Call) : Answer := (Build.outcome { max := c.max } c.sources).answer

def make (s : Store format) (c : Call) : OnDesk Answer := do
  let (o, _) ← Store.build (some s) { max := c.max } c.sources .empty
  return o.answer

def after (s : Store format) (d : Desk) (before : List Call) (c : Call) : Answer :=
  ((do let _ ← before.mapM (make s); make s c : OnDesk Answer).run d).1

def Leaves (c : Call) (key : Digest) (b : Built) : Prop :=
  Project.fingerprint c.sources = key ∧ c.alone = ⟨none, b.warnings, b.code⟩

end Call

def Left (calls : List Call) (key : Digest) (b : Built) : Prop := ∃ c ∈ calls, c.Leaves key b

variable {calls : List Call}

theorem alone_eq (c : Call) : c.alone = (made c.max c.sources).answer := by
  rw [Call.alone, Build.outcome, gives_run rfl rfl rfl c.sources .empty]

theorem keeps_keep (hl : format.Lawful) (s : Store format) (hc : c ∈ calls) (j : Journal) :
    Keeps (Holds (Honest format (Left calls)))
      (s.keep (Project.fingerprint c.sources) (made c.max c.sources) j : OnDesk (Outcome × Journal))
      fun r => r.1 = made c.max c.sources := by
  unfold keep
  rw [hit_made, Bool.false_or]
  split
  · exact Keeps.pure rfl
  · rename_i hfailure
    have hnone : (made c.max c.sources).failure = none := by simpa using hfailure
    have hleft : Left calls (Project.fingerprint c.sources)
        ⟨(made c.max c.sources).code, (made c.max c.sources).diagnostics⟩ := by
      refine ⟨c, hc, rfl, ?_⟩
      rw [alone_eq, Outcome.answer, hnone]
    refine Keeps.bind (tidy_save hl s (areProper_made c.max c.sources) hleft) fun r _ => ?_
    grind [Keeps.pure]

/-- The answer is that of the call alone, or of one that has the same fingerprint and succeeds alone. -/
def Answers (calls : List Call) (c : Call) (a : Answer) : Prop :=
  a = c.alone ∨ ∃ e ∈ calls, Project.fingerprint e.sources = Project.fingerprint c.sources ∧
    e.alone.failure = none ∧ a = e.alone

theorem keeps_make (hl : format.Lawful) (s : Store format) (hc : c ∈ calls) :
    Keeps (Holds (Honest format (Left calls))) (c.make s) (Answers calls c) := by
  have hmiss (j : Journal) : Keeps (Holds (Honest format (Left calls))) (s.keep (Project.fingerprint c.sources)
      ((Build.run { max := c.max, kept := some none } c.sources).run .empty).1 j : OnDesk (Outcome × Journal))
      fun r => Answers calls c r.1.answer := by
    rw [gives_run rfl rfl rfl c.sources .empty]
    exact (keeps_keep hl s hc j).mono fun r hr => .inl (by rw [hr, alone_eq])
  have hbuild : Keeps (Holds (Honest format (Left calls)))
      (Store.build (some s) { max := c.max } c.sources .empty : OnDesk (Outcome × Journal))
      fun r => Answers calls c r.1.answer := by
    refine Keeps.bind (keeps_load s _) fun r hr => ?_
    rcases r with _ | _ | b
    · exact hmiss _
    · exact hmiss _
    · obtain ⟨e, he, hkey, halone⟩ := hr b rfl
      refine Keeps.pure (.inr ⟨e, he, hkey, ?_, ?_⟩)
      · rw [halone]
      · rw [halone]
        rfl
  exact Keeps.bind hbuild fun _ ho => Keeps.pure ho

/-! ### Fingerprints -/

def digested (s : Source) : Bytes := Bytes.ofString s.uri ++ 0 :: s.code

def sealed (ss : List Source) : Bytes :=
  (Digest.of (Bytes.ofString s!"loa-bytecode/{Project.schema}") :: ss.map fun s => .of (digested s)).flatMap (·.bytes)

theorem length_of (s : Bytes) : (Digest.of s).bytes.length = 32 := by
  have hlen (width n : Nat) : (Digest.bigEndian width n).length = width := by
    induction width generalizing n with
    | zero => rfl
    | succ width ih => simp [Digest.bigEndian, ih]
  simp [Digest.of, hlen]

/-- Where digests tell sources apart, rows of digests tell rows of sources apart: all are of one length. -/
theorem eq_of_flatMap_digests {ss ts : List Source}
    (hsame : ∀ s ∈ ss, ∀ t ∈ ts, Digest.of (digested s) = Digest.of (digested t) → s = t)
    (h : (ss.map fun s => Digest.of (digested s)).flatMap (·.bytes) =
      (ts.map fun s => Digest.of (digested s)).flatMap (·.bytes)) : ss = ts := by
  have hlen (s : Source) (ss : List Source) :
      ((s :: ss).map fun s => Digest.of (digested s)).flatMap (·.bytes) ≠ [] := by
    intro hnil
    have hl := congrArg List.length hnil
    rw [map_cons, flatMap_cons, length_append, length_of, length_nil] at hl
    omega
  induction ss generalizing ts with
  | nil =>
    cases ts with
    | nil => rfl
    | cons t ts => exact absurd h.symm (hlen t ts)
  | cons s ss ih =>
    cases ts with
    | nil => exact absurd h (hlen s ss)
    | cons t ts =>
      rw [map_cons, map_cons, flatMap_cons, flatMap_cons] at h
      obtain ⟨hhead, htail⟩ := append_inj h (by rw [length_of, length_of])
      rw [hsame s mem_cons_self t mem_cons_self (congrArg Digest.mk hhead),
        ih (fun s hs t ht => hsame s (mem_cons_of_mem _ hs) t (mem_cons_of_mem _ ht)) htail]

/-- The zero behind a name shows where it ends. -/
theorem digested_inj {s t : Source} (hs : 0 ∉ Bytes.ofString s.uri) (ht : 0 ∉ Bytes.ofString t.uri)
    (h : digested s = digested t) : s.uri = t.uri ∧ s.code = t.code := by
  rcases append_eq_append_iff.mp h with ⟨as, huri, hrest⟩ | ⟨as, huri, hrest⟩
  all_goals
    cases as with
    | nil => grind [Utf8.ofString_injective]
    | cons a as => grind

/-- No two of the texts that these builds make digests of have the same digest. -/
structure Collisionless (calls : List Call) : Prop where
  source : ∀ c ∈ calls, ∀ s ∈ c.sources, ∀ d ∈ calls, ∀ t ∈ d.sources,
    Digest.of (digested s) = Digest.of (digested t) → digested s = digested t
  whole : ∀ c ∈ calls, ∀ d ∈ calls, Digest.of (sealed c.sources) = Digest.of (sealed d.sources) →
    sealed c.sources = sealed d.sources

/-- Names hold no zero, and tell of which kind a source is. -/
structure Named (calls : List Call) : Prop where
  plain : ∀ c ∈ calls, ∀ s ∈ c.sources, 0 ∉ Bytes.ofString s.uri
  kind : ∀ c ∈ calls, ∀ s ∈ c.sources, ∀ d ∈ calls, ∀ t ∈ d.sources, s.uri = t.uri → s.kind = t.kind

theorem sources_eq (hcollide : Collisionless calls) (hnamed : Named calls) {d : Call} (hc : c ∈ calls) (hd : d ∈ calls)
    (h : Project.fingerprint c.sources = Project.fingerprint d.sources) : c.sources = d.sources := by
  refine eq_of_flatMap_digests ?_ (append_cancel_left (hcollide.whole c hc d hd h))
  intro s hs t ht hst
  obtain ⟨huri, hcode⟩ := digested_inj (hnamed.plain c hc s hs) (hnamed.plain d hd t ht)
    (hcollide.source c hc s hs d hd t ht hst)
  have hkind := hnamed.kind c hc s hs d hd t ht huri
  cases s
  cases t
  simp_all

/-- Builds that share a store. Each answers as it would alone, or as an earlier build did that has the same
fingerprint and succeeded. Where digests and names tell sources apart, and those who asked for the same
sources before kept the same remarks, it answers as it would alone. -/
theorem answers_after (hl : format.Lawful) (s : Store format) {desk : Desk}
    (hblank : desk.Holds fun f => ∀ key b, format.find? key f ≠ some (some b)) (before : List Call) (c : Call) :
    Answers before c (c.after s desk before) ∧
      (Collisionless (before ++ [c]) → Named (before ++ [c]) →
        (∀ e ∈ before, e.sources = c.sources →
          Diagnostic.cap e.max (remarks c.sources) = Diagnostic.cap c.max (remarks c.sources)) →
        c.after s desk before = c.alone) := by
  have hanswer : Answers (before ++ [c]) c (c.after s desk before) := by
    have hstart : desk.Holds (Honest format (Left (before ++ [c]))) :=
      fun f hf key b hb => absurd hb (hblank f hf key b)
    have hall : Keeps (Holds (Honest format (Left (before ++ [c]))))
        (do let _ ← before.mapM (Call.make s); Call.make s c : OnDesk Answer) (Answers (before ++ [c]) c) :=
      Keeps.bind (.mapM fun e he => keeps_make hl s (mem_append_left _ he)) fun _ _ => keeps_make hl s (by simp)
    exact (hall desk hstart).1
  have hfirst : Answers before c (c.after s desk before) := by
    rcases hanswer with h | ⟨e, he, hkey, hfailure, h⟩
    · exact .inl h
    · rcases mem_append.mp he with he | he
      · exact .inr ⟨e, he, hkey, hfailure, h⟩
      · rw [mem_singleton.mp he] at h
        exact .inl h
  refine ⟨hfirst, fun hcollide hnamed hcap => ?_⟩
  rcases hfirst with h | ⟨e, he, hkey, -, h⟩
  · exact h
  · have hsources := sources_eq hcollide hnamed (mem_append_left _ he) (by simp) hkey
    rw [h, alone_eq, alone_eq, hsources, answer_made (hcap e he hsources)]

def tries : List Call :=
  [0, 100000, 65535].map (⟨·, [.ofString .module "file:///a.loa" "class A \x7b\x7d"]⟩)

theorem answers_after_tries : Collisionless tries ∧ Named tries ∧
    ∃ c, tries = tries.take 2 ++ [c] ∧ c.after (⟨"/cache"⟩ : Store) (.fresh "/home") (tries.take 2) = c.alone := by
  have hone : ∀ e ∈ tries, e.sources = [.ofString .module "file:///a.loa" "class A \x7b\x7d"] := by
    simp [tries]
  have hcollide : Collisionless tries := by
    refine ⟨fun c hc s hs d hd t ht _ => ?_, fun c hc d hd _ => by rw [hone c hc, hone d hd]⟩
    rw [hone c hc] at hs
    rw [hone d hd] at ht
    rw [mem_singleton.mp hs, mem_singleton.mp ht]
  have hnamed : Named tries := by
    refine ⟨fun c hc s hs => ?_, fun c hc s hs d hd t ht _ => ?_⟩
    · rw [hone c hc] at hs
      rw [mem_singleton.mp hs]
      decide
    · rw [hone c hc] at hs
      rw [hone d hd] at ht
      rw [mem_singleton.mp hs, mem_singleton.mp ht]
  refine ⟨hcollide, hnamed, _, rfl, (answers_after Entry.lawful _ (Desk.holds_fresh "/home") _ _).2 hcollide hnamed ?_⟩
  intro e he _
  have hmax : Diagnostic.limit e.max = 65535 := by
    have hmax : e.max = 0 ∨ e.max = 100000 := by
      rcases mem_cons.mp he with rfl | he
      · exact .inl rfl
      · exact .inr (mem_singleton.mp he ▸ rfl)
    rcases hmax with h | h <;> rw [h] <;> rfl
  rw [Diagnostic.cap, hmax]
  rfl

end Store
end Parlance
