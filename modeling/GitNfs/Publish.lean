import GitNfs.Git.GcsStorage
import GitNfs.Lib.Run
import Mathlib.Logic.Relation

/-! # Sessions on one repository

Any number of servers share a bucket and a branch. Each resolves the branch once and then publishes
commits on top of what it stands on, object by object, in any order with the others.
-/

namespace GitNfs

/-- A commit and the pack it comes in. -/
structure PackedCommit where
  commitOid : Str
  packSha : Str
  packData : Bytes
  idxData : Bytes
  deriving DecidableEq, Repr

/-- How far a session is with publishing, and the objects it is about to write. -/
inductive Phase where
  | idle
  | objects (commit : PackedCommit) (left : List (Str × Bytes))
  | serverInfo (commit : PackedCommit) (left : List (Str × Bytes))
  deriving DecidableEq, Repr

structure Session where
  /-- The commit the session stands on, which its next commit has as its parent. -/
  base : Str
  packNames : List Str
  phase : Phase
  deriving DecidableEq, Repr

structure Remote where
  objects : Bucket
  sessions : Nat → Option Session

/-- The branch that all sessions share, and the parent line of every commit. -/
structure Repository where
  branch : Option Str
  parent : Str → Option Str

def PackedCommit.writes (c : PackedCommit) (repo : Repository) : List (Str × Bytes) :=
  GcsGitStorage.commitWrites c.commitOid c.packSha c.packData c.idxData repo.branch

namespace Repository

def ref (repo : Repository) : Str := Bucket.branchRef (GcsGitStorage.targetBranch repo.branch)

/-- `a` is `b` or one of the commits that `b` is built on. -/
def Ancestor (repo : Repository) : Str → Str → Prop :=
  Relation.ReflTransGen fun p c => repo.parent c = some p

end Repository

namespace Session

/-- The object that a session writes next. -/
def nextWrite (s : Session) : Option (Str × Bytes) :=
  match s.phase with
  | .objects _ (w :: _) => some w
  | .serverInfo _ (w :: _) => some w
  | _ => none

/-- What is left to write belongs to the commit, and the commit to the base. -/
def Writing (repo : Repository) (s : Session) : Prop :=
  match s.phase with
  | .idle => True
  | .objects c left =>
    IsOid c.commitOid ∧ repo.parent c.commitOid = some s.base ∧ ∀ w ∈ left, w ∈ c.writes repo
  | .serverInfo _ left => ∀ w ∈ left, w.1 ≠ "packed-refs".toList ∧ ∀ b, w.1 ≠ Bucket.branchRef b

end Session

namespace Remote

inductive Action where
  | start (i : Nat)
  | publish (i : Nat) (commit : PackedCommit)
  | write (i : Nat)
  | serverInfo (i : Nat)
  | finish (i : Nat)
  /-- A storage error: the session stays where it was and may publish again. -/
  | fail (i : Nat)
  deriving DecidableEq, Repr

def Action.session : Action → Nat
  | .start i | .publish i _ | .write i | .serverInfo i | .finish i | .fail i => i

def initial (objects : Bucket) : Remote := ⟨objects, fun _ => none⟩

def setSession (r : Remote) (i : Nat) (s : Session) : Remote :=
  { r with sessions := Function.update r.sessions i (some s) }

def writeObject (r : Remote) (w : Str × Bytes) : Remote :=
  { r with objects := r.objects.writeRapidObject w.1 w.2 }

def stepSession (repo : Repository) (r : Remote) (s : Session) : Action → Option (Remote × Session)
  | .start _ => none
  | .publish _ c =>
    if s.phase = .idle ∧ IsOid c.commitOid ∧ repo.parent c.commitOid = some s.base then
      some (r, { s with phase := .objects c (c.writes repo) })
    else none
  | .write _ =>
    match s.phase with
    | .objects c (w :: left) => some (r.writeObject w, { s with phase := .objects c left })
    | .serverInfo c (w :: left) => some (r.writeObject w, { s with phase := .serverInfo c left })
    | _ => none
  | .serverInfo _ =>
    match s.phase with
    | .objects c [] =>
      let storage := (GcsGitStorage.mk r.objects s.packNames).refreshPackIndexes
      let left := storage.serverInfoWrites c.commitOid repo.branch
      some (r, { s with packNames := storage.packNames, phase := .serverInfo c left })
    | _ => none
  | .finish _ =>
    match s.phase with
    | .serverInfo c [] => some (r, { s with base := c.commitOid, phase := .idle })
    | _ => none
  | .fail _ => some (r, { s with phase := .idle })

def step (repo : Repository) (r : Remote) (a : Action) : Option Remote :=
  match r.sessions a.session with
  | some s => (stepSession repo r s a).map fun p => p.1.setSession a.session p.2
  | none =>
    match a with
    | .start i =>
      match r.objects.resolveHead repo.branch with
      | .ok (sha, _) => some (r.setSession i ⟨sha, [], .idle⟩)
      | .error _ => none
    | _ => none

/-- The value of the branch that commits are published to. -/
def refValue (repo : Repository) (r : Remote) : Option Str := r.objects.lookupRef repo.ref

/-- In every run from a repository without sessions, what was the value of the branch is an ancestor of
every later value. -/
def KeepsPublished (repo : Repository) (objects : Bucket) : Prop :=
  ∀ as bs r r', Run.run (step repo) (initial objects) as = some r → Run.run (step repo) r bs = some r' →
    ∀ v, refValue repo r = some v → ∃ v', refValue repo r' = some v' ∧ repo.Ancestor v v'

/-- A session that is about to replace the branch finds it at a commit that the session's own base is
built on. -/
def RefNotMoved (repo : Repository) (r : Remote) (a : Action) : Prop :=
  ∀ s w, r.sessions a.session = some s → a = .write a.session → s.nextWrite = some w → w.1 = repo.ref →
    ∀ v, refValue repo r = some v → repo.Ancestor v s.base

/-! ## One step -/

def AllWriting (repo : Repository) (r : Remote) : Prop :=
  ∀ i s, r.sessions i = some s → s.Writing repo

theorem stepSession_sessions (repo : Repository) (r r' : Remote) (s s' : Session) (a : Action)
    (h : stepSession repo r s a = some (r', s')) : r'.sessions = r.sessions := by
  unfold stepSession at h
  split at h
  case h_2 => split_ifs at h; simp only [Option.some.injEq, Prod.mk.injEq] at h; rw [← h.1]
  all_goals first
    | (split at h <;> simp only [Option.some.injEq, Prod.mk.injEq, reduceCtorEq] at h <;>
        rw [← h.1] <;> rfl)
    | simp only [Option.some.injEq, Prod.mk.injEq, reduceCtorEq] at h
  rw [← h.1]

theorem stepSession_writing (repo : Repository) (r r' : Remote) (s s' : Session) (a : Action)
    (hs : s.Writing repo) (h : stepSession repo r s a = some (r', s')) : s'.Writing repo := by
  cases a with
  | start i => simp [stepSession] at h
  | publish i c =>
    simp only [stepSession] at h
    split_ifs at h with hc
    simp only [Option.some.injEq, Prod.mk.injEq] at h
    obtain ⟨-, rfl⟩ := h
    exact ⟨hc.2.1, hc.2.2, fun w hw => hw⟩
  | write i =>
    simp only [stepSession] at h
    split at h
    · rename_i c w left hphase
      simp only [Option.some.injEq, Prod.mk.injEq] at h
      obtain ⟨-, rfl⟩ := h
      simp only [Session.Writing, hphase] at hs ⊢
      exact ⟨hs.1, hs.2.1, fun x hx => hs.2.2 x (List.mem_cons_of_mem _ hx)⟩
    · rename_i c w left hphase
      simp only [Option.some.injEq, Prod.mk.injEq] at h
      obtain ⟨-, rfl⟩ := h
      simp only [Session.Writing, hphase] at hs ⊢
      exact fun x hx => hs x (List.mem_cons_of_mem _ hx)
    · simp at h
  | serverInfo i =>
    simp only [stepSession] at h
    split at h
    · simp only [Option.some.injEq, Prod.mk.injEq] at h
      obtain ⟨-, rfl⟩ := h
      exact fun w hw => GcsGitStorage.serverInfoWrites_name hw
    · simp at h
  | finish i =>
    simp only [stepSession] at h
    split at h
    · simp only [Option.some.injEq, Prod.mk.injEq] at h
      obtain ⟨-, rfl⟩ := h
      trivial
    · simp at h
  | fail i =>
    simp only [stepSession, Option.some.injEq, Prod.mk.injEq] at h
    obtain ⟨-, rfl⟩ := h
    trivial

/-- A step leaves the branch alone, or it puts a commit there whose parent is the session's base. -/
theorem stepSession_ref (repo : Repository) (r r' : Remote) (s s' : Session) (a : Action)
    (hs : s.Writing repo) (h : stepSession repo r s a = some (r', s')) :
    refValue repo r' = refValue repo r ∨
      ∃ w c, a = .write a.session ∧ s.nextWrite = some w ∧ w.1 = repo.ref ∧
        repo.parent c = some s.base ∧ refValue repo r' = some c := by
  cases a with
  | start i => simp [stepSession] at h
  | publish i c =>
    simp only [stepSession] at h
    split_ifs at h with hc
    simp only [Option.some.injEq, Prod.mk.injEq] at h
    exact .inl (by rw [← h.1])
  | write i =>
    simp only [stepSession] at h
    split at h
    · rename_i c w left hphase
      simp only [Option.some.injEq, Prod.mk.injEq] at h
      obtain ⟨rfl, -⟩ := h
      simp only [Session.Writing, hphase] at hs
      obtain ⟨hoid, hparent, hleft⟩ := hs
      obtain ⟨hpacked, rfl | hother⟩ := GcsGitStorage.commitWrites_name (hleft w List.mem_cons_self)
      · refine .inr ⟨(repo.ref, asBytes (c.commitOid ++ ['\n'])), c.commitOid, rfl, ?_, rfl, hparent, ?_⟩
        · rw [Session.nextWrite, hphase]; rfl
        · exact Bucket.lookupRef_write_ref _ _ _ hoid
      · exact .inl (Bucket.lookupRef_write_of_ne _ _ _ _ (hother _) hpacked)
    · rename_i c w left hphase
      simp only [Option.some.injEq, Prod.mk.injEq] at h
      obtain ⟨rfl, -⟩ := h
      simp only [Session.Writing, hphase] at hs
      obtain ⟨hpacked, hother⟩ := hs w List.mem_cons_self
      exact .inl (Bucket.lookupRef_write_of_ne _ _ _ _ (hother _) hpacked)
    · simp at h
  | serverInfo i =>
    simp only [stepSession] at h
    split at h
    · simp only [Option.some.injEq, Prod.mk.injEq] at h
      exact .inl (by rw [← h.1])
    · simp at h
  | finish i =>
    simp only [stepSession] at h
    split at h
    · simp only [Option.some.injEq, Prod.mk.injEq] at h
      exact .inl (by rw [← h.1])
    · simp at h
  | fail i =>
    simp only [stepSession, Option.some.injEq, Prod.mk.injEq] at h
    exact .inl (by rw [← h.1])

theorem step_cases (repo : Repository) (r r' : Remote) (a : Action) (h : step repo r a = some r') :
    (∃ s r₁ s', r.sessions a.session = some s ∧ stepSession repo r s a = some (r₁, s') ∧
      r' = r₁.setSession a.session s') ∨
    (∃ sha, r' = r.setSession a.session ⟨sha, [], .idle⟩) := by
  unfold step at h
  split at h
  · rename_i s hs
    simp only [Option.map_eq_some_iff] at h
    obtain ⟨⟨r₁, s'⟩, hstep, rfl⟩ := h
    exact .inl ⟨s, r₁, s', hs, hstep, rfl⟩
  · split at h
    · split at h
      · simp only [Option.some.injEq] at h
        exact .inr ⟨_, h.symm⟩
      · simp at h
    · simp at h

theorem setSession_writing (repo : Repository) (r : Remote) (i : Nat) (s : Session)
    (hr : AllWriting repo r) (hs : s.Writing repo) : AllWriting repo (r.setSession i s) := by
  intro j t ht
  by_cases hj : j = i
  · subst hj
    simp only [setSession, Function.update_self, Option.some.injEq] at ht
    exact ht ▸ hs
  · simp only [setSession, Function.update_of_ne hj] at ht
    exact hr j t ht

/-- The value of the branch before a step is an ancestor of the one after it. -/
def Advances (repo : Repository) (r r' : Remote) : Prop :=
  ∀ v, refValue repo r = some v → ∃ v', refValue repo r' = some v' ∧ repo.Ancestor v v'

instance (repo : Repository) : Std.Refl (Advances repo) := ⟨fun _ v hv => ⟨v, hv, .refl⟩⟩

instance (repo : Repository) : IsTrans Remote (Advances repo) where
  trans _ _ _ h₁ h₂ v hv := by
    obtain ⟨u, hu, hvu⟩ := h₁ v hv
    obtain ⟨w, hw, huw⟩ := h₂ u hu
    exact ⟨w, hw, hvu.trans huw⟩

theorem step_advances (repo : Repository) (r : Remote) (a : Action) (r' : Remote)
    (hr : AllWriting repo r) (hok : RefNotMoved repo r a) (h : step repo r a = some r') :
    AllWriting repo r' ∧ Advances repo r r' := by
  obtain ⟨s, r₁, s', hs, hstep, rfl⟩ | ⟨sha, rfl⟩ := step_cases repo r r' a h
  · have hwriting := hr _ _ hs
    have hsame : AllWriting repo r₁ := by
      intro j t ht
      rw [stepSession_sessions _ _ _ _ _ _ hstep] at ht
      exact hr j t ht
    refine ⟨setSession_writing _ _ _ _ hsame (stepSession_writing _ _ _ _ _ _ hwriting hstep), ?_⟩
    intro v hv
    obtain hkeep | ⟨w, c, ha, hnext, hw, hparent, hc⟩ := stepSession_ref _ _ _ _ _ _ hwriting hstep
    · exact ⟨v, hkeep.trans hv, .refl⟩
    · exact ⟨c, hc, (hok s w hs ha hnext hw v hv).tail hparent⟩
  · exact ⟨setSession_writing _ _ _ _ hr trivial, fun v hv => ⟨v, hv, .refl⟩⟩

def racedRepo : Repository where
  branch := some "main".toList
  parent := fun c =>
    if c = List.replicate 40 'b' ∨ c = List.replicate 40 'c' then some (List.replicate 40 'a') else none

def racedObjects : Bucket :=
  (∅ : Bucket).writeRapidObject "refs/heads/main".toList (asBytes (List.replicate 40 'a' ++ ['\n']))

def racedCommit (c : Char) : PackedCommit := ⟨List.replicate 40 c, List.replicate 40 c, [1], [2]⟩

def racedFirst : List Action :=
  [.start 0, .start 1, .publish 0 (racedCommit 'b'), .write 0, .write 0, .write 0, .write 0]

def racedThen : List Action :=
  [.publish 1 (racedCommit 'c'), .write 1, .write 1, .write 1, .write 1]

theorem raced_not_ancestor :
    ¬ racedRepo.Ancestor (List.replicate 40 'b') (List.replicate 40 'c') := by
  intro h
  obtain heq | ⟨c, hbc, hc⟩ := Relation.ReflTransGen.cases_tail h
  · exact absurd heq (by decide)
  · have : c = List.replicate 40 'a' := by
      have : racedRepo.parent (List.replicate 40 'c') = some (List.replicate 40 'a') := by decide
      rw [this] at hc
      exact (Option.some.inj hc).symm
    subst this
    obtain heq | ⟨d, -, hd⟩ := Relation.ReflTransGen.cases_tail hbc
    · exact absurd heq (by decide)
    · exact absurd hd (by simp [racedRepo])

/-- A check that is enough for `RefNotMoved`: the branch is where the session stands, or is not there. -/
def refAtBase (repo : Repository) (r : Remote) (a : Action) : Bool :=
  match r.sessions a.session with
  | some s => refValue repo r = some s.base || refValue repo r = none
  | none => true

theorem refNotMoved_of_refAtBase (repo : Repository) (r : Remote) (a : Action)
    (h : refAtBase repo r a = true) : RefNotMoved repo r a := by
  intro s w hs _ _ _ v hv
  simp only [refAtBase, hs, hv, Option.some.injEq, reduceCtorEq, decide_false, Bool.or_false,
    decide_eq_true_eq] at h
  exact h ▸ .refl

end Remote

end GitNfs
