import GitNfs.Staging

/-! # Trying again after a failed write

Whether the initial data is still to be copied is decided by the file in the staging directory, and the
first call that makes this file decides what all later ones build on.
-/

namespace GitNfs

/-- A call that changes a staging file. -/
inductive StagingEdit where
  | write (offset : Nat) (data : Bytes)
  | truncate (newSize : Nat)
  deriving DecidableEq, Repr

namespace StagingEdit

/-- The edit as an operation on the content of a file. -/
def apply : StagingEdit → Bytes → Bytes
  | .write offset data, content => writeBytes content offset data
  | .truncate newSize, content => setLen content newSize

def run (edit : StagingEdit) (st : StagingStore) (id : Nat) (initialData : Option Bytes)
    (fault : Option IoFault) : Except Error Unit × StagingStore :=
  match edit with
  | .write offset data => ((st.writeAt id offset data initialData fault).1.map fun _ => (),
      (st.writeAt id offset data initialData fault).2)
  | .truncate newSize => st.truncate id newSize initialData fault

/-- The data of its own that a call has written when it fails. -/
def ownData : StagingEdit → Option IoFault → Bytes
  | .write _ data, some (.write written) => data.take written
  | .write _ data, some .flush => data
  | _, _ => []

/-- What a call makes of the file of a staged node when it fails. -/
def spoil : StagingEdit → Option IoFault → Bytes → Bytes
  | .write offset data, fault, content => writeBytes content offset ((write offset data).ownData fault)
  | .truncate _, _, content => content

theorem apply_nothing (content : Bytes) : (write 0 []).apply content = content := by
  simp [apply, writeBytes]

end StagingEdit

namespace StagingStore

variable {st st' : StagingStore} {id : Nat} {initialData : Option Bytes} {fault : Option IoFault}

/-! ## The calls that fail -/

/-- Calls on one node that fail one after the other, without having written any data of their own. -/
inductive Failures (id : Nat) (initialData : Option Bytes) :
    StagingStore → List (StagingEdit × Option IoFault) → StagingStore → Prop where
  | nil (st : StagingStore) : Failures id initialData st [] st
  | cons {st st' st'' : StagingStore} {edit : StagingEdit} {fault : Option IoFault} {e : Error}
      {calls : List (StagingEdit × Option IoFault)}
      (hrun : edit.run st id initialData fault = (.error e, st')) (hown : edit.ownData fault = [])
      (hrest : Failures id initialData st' calls st'') :
      Failures id initialData st ((edit, fault) :: calls) st''

/-- What the staging directory has for a node after a call that failed. -/
def leftBehind (base : Bytes) : Option Bytes → Option IoFault → Option Bytes
  | some content, _ => some content
  | none, some .create => none
  | none, some (.copy copied) => some (base.take copied)
  | none, _ => some base

/-- The first call that makes a file for the node copies all of the base into it. -/
def Copies (base : Bytes) : Option Bytes → List (StagingEdit × Option IoFault) → Prop
  | some content, _ => content = base
  | none, [] => True
  | none, (_, fault) :: calls => Copies base (leftBehind base none fault) calls

theorem openStaged_error {e : Error} (h : st.openStaged id initialData fault = (.error e, st')) :
    st'.stagedNodes = st.stagedNodes ∧
      st'.files id = leftBehind (initialData.getD []) (st.files id) fault := by
  unfold openStaged at h
  cases hf : st.files id with
  | some content =>
    simp only [hf] at h
    split_ifs at h
    · cases h
      exact ⟨rfl, hf⟩
    · simp at h
  | none =>
    simp only [hf] at h
    split at h
    · cases h
      exact ⟨rfl, hf⟩
    · cases h
      exact ⟨rfl, by simp [setFile, leftBehind]⟩
    · cases h
      exact ⟨rfl, by simp [setFile, leftBehind]⟩
    · simp at h

theorem leftBehind_whole {base : Bytes} (hcreate : fault ≠ some .create)
    (hcopy : ∀ copied, fault ≠ some (.copy copied)) : leftBehind base none fault = some base := by
  rcases fault with - | fault
  · rfl
  · cases fault with
    | create => exact absurd rfl hcreate
    | copy copied => exact absurd rfl (hcopy copied)
    | _ => rfl

/-- A call that got past opening the file has all of the base in it. -/
theorem openStaged_opened {content : Bytes} (h : st.openStaged id initialData fault = (.ok content, st')) :
    st'.stagedNodes = st.stagedNodes ∧ content = st.opened id initialData ∧
      st'.files id = some content ∧ leftBehind (initialData.getD []) (st.files id) fault = some content := by
  unfold openStaged at h
  unfold opened
  cases hf : st.files id with
  | some file =>
    simp only [hf] at h
    split_ifs at h
    · simp at h
    · cases h
      exact ⟨rfl, rfl, hf, rfl⟩
  | none =>
    simp only [hf] at h
    split at h
    · simp at h
    · simp at h
    · simp at h
    · rename_i hcreate hcopy _
      cases h
      exact ⟨rfl, rfl, by simp [setFile], leftBehind_whole hcreate hcopy⟩

/-- How a call goes on once the file is open. -/
theorem run_opened (edit : StagingEdit) {content : Bytes}
    (hopen : st.openStaged id initialData fault = (.ok content, st')) :
    (∃ e st'', edit.run st id initialData fault = (.error e, st'') ∧ st''.stagedNodes = st'.stagedNodes ∧
        (edit.ownData fault = [] → st''.files id = some content)) ∨
      edit.run st id initialData fault = (.ok (), st'.stored id (edit.apply content)) := by
  have hfile := (openStaged_opened hopen).2.2.1
  cases edit with
  | write offset data =>
    simp only [StagingEdit.run, writeAt, hopen]
    split
    · exact .inl ⟨_, _, rfl, rfl, fun _ => hfile⟩
    · exact .inl ⟨_, _, rfl, rfl, fun hown => by
        simp only [StagingEdit.ownData] at hown
        simp [setFile, hown, writeBytes]⟩
    · exact .inl ⟨_, _, rfl, rfl, fun hown => by
        simp only [StagingEdit.ownData] at hown
        simp [setFile, hown, writeBytes]⟩
    · exact .inr rfl
  | truncate newSize =>
    simp only [StagingEdit.run, truncate, hopen]
    split
    · exact .inl ⟨_, _, rfl, rfl, fun _ => hfile⟩
    · exact .inr (by simp only [stored, StagingEdit.apply, setLen_length])

theorem run_unopened {edit : StagingEdit} {e : Error}
    (hopen : st.openStaged id initialData fault = (.error e, st')) :
    edit.run st id initialData fault = (.error e, st') := by
  cases edit with
  | write offset data =>
    simp only [StagingEdit.run, writeAt, hopen]
    rfl
  | truncate newSize => simp only [StagingEdit.run, truncate, hopen]

/-- What a failed call leaves: the node is as much staged as before, and its file was made by opening it. -/
theorem run_error {edit : StagingEdit} {e : Error} (hrun : edit.run st id initialData fault = (.error e, st'))
    (hown : edit.ownData fault = []) :
    st'.stagedNodes = st.stagedNodes ∧
      st'.files id = leftBehind (initialData.getD []) (st.files id) fault := by
  rcases hopen : st.openStaged id initialData fault with ⟨e' | content, mid⟩
  · rw [run_unopened hopen] at hrun
    cases hrun
    exact openStaged_error hopen
  · obtain ⟨hstaged, -, -, hleft⟩ := openStaged_opened hopen
    rcases run_opened edit hopen with ⟨e', st'', hfail, hsame, hfile⟩ | hok
    · rw [hfail] at hrun
      cases hrun
      rw [hleft]
      exact ⟨hsame.trans hstaged, hfile hown⟩
    · rw [hok] at hrun
      simp at hrun

/-- After failed calls the node is not staged yet, and its file holds the base if the first of them that
made a file copied all of it. -/
theorem failures_left {calls : List (StagingEdit × Option IoFault)} (h : Failures id initialData st calls st') :
    st'.stagedNodes = st.stagedNodes ∧
      (st'.opened id initialData = initialData.getD [] ↔
        Copies (initialData.getD []) (st.files id) calls) := by
  induction h with
  | nil st =>
    refine ⟨rfl, ?_⟩
    unfold opened
    cases st.files id with
    | some content => simp [Copies]
    | none => simp [Copies]
  | @cons st mid st'' edit fault e calls hrun hown _ ih =>
    obtain ⟨hstaged, hfile⟩ := run_error hrun hown
    refine ⟨ih.1.trans hstaged, ih.2.trans ?_⟩
    rw [hfile]
    cases st.files id with
    | some content => cases calls <;> rfl
    | none => rfl

/-! ## What a call leaves of the store -/

/-- Opening makes at most a file for the node, and only if there is none. -/
theorem openStaged_store {res : Except Error Bytes} (h : st.openStaged id initialData fault = (res, st')) :
    st' = st ∨ st.files id = none ∧ ∃ base, st' = st.setFile id base := by
  unfold openStaged at h
  cases hf : st.files id with
  | some content =>
    simp only [hf] at h
    split_ifs at h <;>
    · cases h
      exact .inl rfl
  | none =>
    simp only [hf] at h
    split at h <;> cases h
    · exact .inl rfl
    · exact .inr ⟨rfl, _, rfl⟩
    · exact .inr ⟨rfl, _, rfl⟩
    · exact .inr ⟨rfl, _, rfl⟩

/-- A call that fails stages nothing. -/
theorem run_error_store {edit : StagingEdit} {e : Error}
    (hrun : edit.run st id initialData fault = (.error e, st')) :
    ∃ file, st' = { st with files := Function.update st.files id file } ∧
      ∀ content, st.files id = some content → file = some (edit.spoil fault content) := by
  have hsame : { st with files := Function.update st.files id (st.files id) } = st := by
    rw [Function.update_eq_self]
  rcases hopen : st.openStaged id initialData fault with ⟨e' | content, mid⟩
  · rw [run_unopened hopen] at hrun
    cases hrun
    rcases openStaged_store hopen with rfl | ⟨hnone, base, rfl⟩
    · refine ⟨_, hsame.symm, fun content hc => ?_⟩
      -- with the file there only its opening can fail
      unfold openStaged at hopen
      rw [hc] at hopen ⊢
      simp only at hopen
      split_ifs at hopen with hfault
      · rw [hfault]
        cases edit <;> simp [StagingEdit.spoil, StagingEdit.ownData, writeBytes]
      · simp at hopen
    · exact ⟨some base, rfl, fun content hc => by simp [hnone] at hc⟩
  · obtain ⟨-, -, hfile, -⟩ := openStaged_opened hopen
    have hstore := openStaged_store hopen
    have hset (c : Bytes) : mid.setFile id c = { st with files := Function.update st.files id (some c) } := by
      rcases hstore with rfl | ⟨-, base, rfl⟩
      · rfl
      · exact setFile_setFile st id base c
    have hmid : mid = { st with files := Function.update st.files id (some content) } := by
      rw [← hset content]
      unfold setFile
      rw [← hfile, Function.update_eq_self]
    have hcontent (c : Bytes) (hc : st.files id = some c) : content = c := by
      rcases hstore with rfl | ⟨hnone, -⟩
      · rw [hc, Option.some.injEq] at hfile
        exact hfile.symm
      · simp [hnone] at hc
    cases edit with
    | write offset data =>
      simp only [StagingEdit.run, writeAt, hopen] at hrun
      split at hrun
      · cases hrun
        exact ⟨_, hmid, fun c hc => by
          simp [hcontent c hc, StagingEdit.spoil, StagingEdit.ownData, writeBytes]⟩
      · cases hrun
        exact ⟨_, hset _, fun c hc => by simp [hcontent c hc, StagingEdit.spoil, StagingEdit.ownData]⟩
      · cases hrun
        exact ⟨_, hset _, fun c hc => by simp [hcontent c hc, StagingEdit.spoil, StagingEdit.ownData]⟩
      · simp [Except.map] at hrun
    | truncate newSize =>
      simp only [StagingEdit.run, truncate, hopen] at hrun
      split at hrun
      · cases hrun
        exact ⟨_, hmid, fun c hc => by simp [hcontent c hc, StagingEdit.spoil]⟩
      · simp at hrun

theorem run_ok_store {edit : StagingEdit} (hrun : edit.run st id initialData fault = (.ok (), st')) :
    st' = st.stored id (edit.apply (st.opened id initialData)) := by
  rcases hopen : st.openStaged id initialData fault with ⟨e | content, mid⟩
  · rw [run_unopened hopen] at hrun
    simp at hrun
  · obtain ⟨-, rfl, -, -⟩ := openStaged_opened hopen
    rcases run_opened edit hopen with ⟨e, st'', hfail, -, -⟩ | hok
    · rw [hfail] at hrun
      simp at hrun
    · rw [hok] at hrun
      cases hrun
      rcases openStaged_store hopen with rfl | ⟨-, base, rfl⟩
      · rfl
      · unfold stored
        rw [setFile_setFile]

theorem run_ok {edit : StagingEdit} (hrun : edit.run st id initialData fault = (.ok (), st')) :
    st'.getStagedContent id = .ok (some (edit.apply (st.opened id initialData))) := by
  rw [run_ok_store hrun]
  simp [getStagedContent, isStaged]

/-! ## The call that succeeds at last -/

/-- A call that succeeds after failed ones builds on the initial data exactly when the first of them that
made a file copied all of it. -/
theorem retry_builds_on_base (st st' : StagingStore) (id : Nat) (initialData : Option Bytes)
    (calls : List (StagingEdit × Option IoFault)) (hunstaged : st.isStaged id = false)
    (hfail : Failures id initialData st calls st') :
    st'.isStaged id = false ∧
      ((∀ (edit : StagingEdit) fault st'', edit.run st' id initialData fault = (.ok (), st'') →
          st''.getStagedContent id = .ok (some (edit.apply (initialData.getD [])))) ↔
        Copies (initialData.getD []) (st.files id) calls) := by
  obtain ⟨hstaged, hleft⟩ := failures_left hfail
  refine ⟨by rw [isStaged, hstaged]; exact hunstaged, ?_⟩
  rw [← hleft]
  constructor
  · intro h
    -- A write of no data shows what the later call starts from.
    have hrun : (StagingEdit.write 0 []).run st' id initialData none =
        (.ok (), st'.stored id (writeBytes (st'.opened id initialData) 0 [])) := by
      simp only [StagingEdit.run, writeAt_ok]
      rfl
    have hgot := h _ _ _ hrun
    rw [run_ok hrun, StagingEdit.apply_nothing, StagingEdit.apply_nothing] at hgot
    simpa using hgot
  · intro h edit fault st'' hrun
    rw [run_ok hrun, h]

theorem retry_builds_on_base_opening :
    let st' := (new.setFile 5 [1, 2])
    st'.isStaged 5 = false ∧
      ((∀ (edit : StagingEdit) fault st'', edit.run st' 5 (some [1, 2]) fault = (.ok (), st'') →
          st''.getStagedContent 5 = .ok (some (edit.apply [1, 2]))) ↔
        Copies [1, 2] none [(.write 0 [9], some .openFile)]) :=
  retry_builds_on_base new (new.setFile 5 [1, 2]) 5 (some [1, 2]) [(.write 0 [9], some .openFile)] rfl
    (.cons (e := .stagedFile 5) rfl rfl (.nil _))

/-- The first write is stopped after one of the two bytes of the base, and the next one builds on that. -/
theorem torn_copy_becomes_base :
    ∃ st', new.isStaged 5 = false ∧
      Failures 5 (some [1, 2]) new [(.write 0 [9], some (.copy 1))] st' ∧
      ((StagingEdit.write 2 [7]).run st' 5 (some [1, 2]) none).1 = .ok () ∧
      ((StagingEdit.write 2 [7]).run st' 5 (some [1, 2]) none).2.getStagedContent 5 =
        .ok (some [1, 0, 7]) ∧
      (StagingEdit.write 2 [7]).apply [1, 2] = [1, 2, 7] := by
  refine ⟨new.setFile 5 [1], rfl, ?_, rfl, rfl, rfl⟩
  exact .cons (e := .stagedFile 5) rfl rfl (.nil _)

end StagingStore

end GitNfs
