import BlockContainer.Proofs.Reader.Exhausted

/-! # A call of a pattern's reader in steps

Another thread may ask a question while the reader of a pattern is at work. A call of the reader
falls into steps, which end where the reader takes or gives back its lock, and the question is
answered between two of them. The steps of a call make up the call.
-/
namespace BlockContainer

variable {α : Type} [RecordType α] {t : FileTree}

namespace PatternReader

/-- Where the thread of a reader stands between two steps. -/
inductive Stage (α : Type) where
  /-- In no call. The answer is that to the last call. -/
  | resting (answer? : Option (Except Error Bool))
  /-- The pattern has been expanded. -/
  | listed (files : List Bytes)
  /-- At the head of the loop over the files. -/
  | opening
  /-- The reader of the next file has been started. -/
  | opened (reader : ContainerReader α) (found : Bool)
  /-- No file is left. -/
  | finishing
  /-- The reader of the present file has come to its end. -/
  | passing

structure Moment (α : Type) where
  reader : PatternReader α
  stage : Stage α := .resting none
  /-- Whether the reader that is installed is that of a file that has been passed. -/
  overtaken : Bool := false

namespace Moment

def answered (m : Moment α) (answer : Except Error Bool) : Moment α :=
  { m with stage := .resting (some answer) }

def withReader (m : Moment α) (reader : ContainerReader α) : Moment α :=
  { m with reader := { m.reader with reader? := some reader } }

def call (t : FileTree) (m : Moment α) : Call → Moment α
  | .start =>
    if m.reader.started then m.answered (.error (.misuse Call.start.misuse))
    else { m with
      reader := { m.reader with started := true }
      stage := .listed (t.glob m.reader.source.path) }
  | .advance =>
    if !m.reader.started then m.answered (.error (.misuse Call.advance.misuse))
    else match m.reader.done, m.reader.reader? with
      | false, some reader =>
        match ContainerReader.advance reader with
        | .error e reader => (m.withReader reader).answered (.error e)
        | .ok true reader => (m.withReader reader).answered (.ok true)
        | .ok false reader => { m.withReader reader with stage := .passing }
      | _, _ => m.answered (.ok false)

def goOn (t : FileTree) (m : Moment α) : Moment α :=
  match m.stage with
  | .resting _ => m
  | .listed files => { m with
      reader := { m.reader with files, ahead := files }
      stage := .opening }
  | .opening =>
    match m.reader.ahead with
    | [] => { m with stage := .finishing }
    | path :: _ =>
      match startFile t m.reader.source m.reader.scanSize path with
      | .error e => m.answered (.error e)
      | .ok (reader, found) => { m with stage := .opened reader found }
  | .opened reader found =>
    { reader := install reader found m.reader
      stage := if found then .resting (some (.ok true)) else .opening
      overtaken := !found }
  | .finishing => { reader := finish m.reader, stage := .resting (some (.ok false)) }
  | .passing => { reader := pass m.reader, stage := .opening, overtaken := true }

end Moment

inductive Event where
  | call (c : Call)
  | goOn
deriving DecidableEq, Repr

namespace Moment

/-- A thread that is in a call makes no other one. -/
def step (t : FileTree) (m : Moment α) : Event → Moment α
  | .call c =>
    match m.stage with
    | .resting _ => m.call t c
    | _ => m
  | .goOn => m.goOn t

def after (t : FileTree) (m : Moment α) (events : List Event) : Moment α :=
  events.foldl (step t) m

def exhausted (m : Moment α) : Bool :=
  match m.stage with
  | .resting (some (.ok false)) => true
  | _ => false

/-- The steps of the call lead from one moment to the other. -/
def Leads (t : FileTree) (m m' : Moment α) : Prop := ∃ k, (goOn t)^[k] m = m'

theorem Leads.refl (m : Moment α) : Leads t m m := ⟨0, rfl⟩

theorem Leads.head {m m' : Moment α} (h : Leads t (m.goOn t) m') : Leads t m m' := by
  obtain ⟨k, hk⟩ := h
  exact ⟨k + 1, hk⟩

def RestsWith (m : Moment α) : EStateM.Result Error (PatternReader α) Bool → Prop
  | .ok found r => m.reader = r ∧ m.stage = .resting (some (.ok found))
  | .error e r => m.reader = r ∧ m.stage = .resting (some (.error e))

theorem leads_of_opening {files : List Bytes} {m : Moment α} (hstage : m.stage = .opening)
    (hahead : m.reader.ahead = files) :
    ∃ m', Leads t m m' ∧ m'.RestsWith (openFrom t files m.reader) := by
  induction files generalizing m with
  | nil =>
    refine ⟨_, .head (.head (.refl _)), ?_⟩
    simp only [goOn, hstage, hahead]
    exact ⟨rfl, rfl⟩
  | cons path rest ih =>
    cases hfile : startFile (α := α) t m.reader.source m.reader.scanSize path with
    | error e =>
      refine ⟨_, .head (.refl _), ?_⟩
      simp only [goOn, hstage, hahead, hfile]
      rw [openFrom, Runs.get_bind, hfile]
      exact ⟨rfl, rfl⟩
    | ok opened =>
      obtain ⟨reader, found⟩ := opened
      have hgoOn : m.goOn t = { m with stage := .opened reader found } := by
        simp only [goOn, hstage, hahead, hfile]
      rw [openFrom_of_started hfile]
      cases found with
      | true =>
        refine ⟨_, .head (.head (.refl _)), ?_⟩
        rw [hgoOn]
        exact ⟨rfl, rfl⟩
      | false =>
        have hahead' : (install reader false m.reader).ahead = rest := by simp [install, hahead]
        obtain ⟨m', hleads, hrests⟩ := ih (m := ((m.goOn t).goOn t)) (by rw [hgoOn]; rfl)
          (by rw [hgoOn]; exact hahead')
        refine ⟨m', hleads.head.head, ?_⟩
        rw [hgoOn] at hrests
        exact hrests

omit [RecordType α] in
theorem call_advance_over {m : Moment α} (hstarted : m.reader.started = true)
    (h : m.reader.done = true ∨ m.reader.reader?.isNone) :
    m.call t .advance = m.answered (.ok false) := by
  simp only [call, hstarted, Bool.not_true, Bool.false_eq_true, if_false]
  rcases h with hdone | hnone
  · rw [hdone]
  · rw [Option.isNone_iff_eq_none.1 hnone]
    cases m.reader.done <;> rfl

omit [RecordType α] in
theorem call_advance_reader {m : Moment α} {reader : ContainerReader α}
    (hstarted : m.reader.started = true) (hdone : m.reader.done = false)
    (hreader : m.reader.reader? = some reader) :
    m.call t .advance = match ContainerReader.advance reader with
      | .error e reader => (m.withReader reader).answered (.error e)
      | .ok true reader => (m.withReader reader).answered (.ok true)
      | .ok false reader => { m.withReader reader with stage := .passing } := by
  simp only [call, hstarted, hdone, hreader, Bool.not_true, Bool.false_eq_true, if_false]

/-- The steps of a call make up the call. -/
theorem leads_of_call {m : Moment α} (c : Call) :
    ∃ m', Leads t (m.call t c) m' ∧ m'.RestsWith (perform t c m.reader) := by
  cases c with
  | start =>
    by_cases hstarted : m.reader.started = true
    · refine ⟨_, .refl _, ?_⟩
      rw [refused_of_misplaced (c := .start) hstarted]
      simp only [call, hstarted, if_true]
      exact ⟨rfl, rfl⟩
    · have hfresh : m.reader.started = false := Bool.eq_false_iff.2 hstarted
      obtain ⟨m', hleads, hrests⟩ := leads_of_opening (t := t) (m := (m.call t .start).goOn t)
        (by simp [call, goOn, hfresh]) rfl
      refine ⟨m', hleads.head, ?_⟩
      rw [perform, start_of_glob hfresh rfl]
      simpa [call, goOn, hfresh] using hrests
  | advance =>
    by_cases hstarted : m.reader.started = true
    · rcases m.reader.over_or_open with hover | ⟨hdone, reader, hreader⟩
      · refine ⟨_, .refl _, ?_⟩
        rw [perform, advance_of_over hstarted hover, call_advance_over hstarted hover]
        exact ⟨rfl, rfl⟩
      · rw [perform, advance_of_reader hstarted hdone hreader,
          call_advance_reader hstarted hdone hreader]
        cases ContainerReader.advance reader with
        | error e reader => exact ⟨_, .refl _, rfl, rfl⟩
        | ok found reader =>
          cases found with
          | true => exact ⟨_, .refl _, rfl, rfl⟩
          | false =>
            obtain ⟨m', hleads, hrests⟩ := leads_of_opening (t := t)
              (m := ({ m.withReader reader with stage := .passing } : Moment α).goOn t) rfl rfl
            exact ⟨m', hleads.head, hrests⟩
    · have hfresh : m.reader.started = false := Bool.eq_false_iff.2 hstarted
      refine ⟨_, .refl _, ?_⟩
      rw [refused_of_misplaced (c := .advance) hfresh]
      simp only [call, hfresh, Bool.not_false, if_true]
      exact ⟨rfl, rfl⟩

end Moment
end PatternReader
end BlockContainer
