import GitNfs.Wal.Proto
import Mathlib.Data.List.AList
import Mathlib.Data.List.Sort

/-! # WAL backends

A log is kept as the entries that `decode_all_framed` reads back from it. A listing is taken to be whole.
-/

namespace GitNfs

inductive BackendKind where
  | localFs
  | gcs
  deriving DecidableEq, Repr

structure LogFile where
  entries : List WalEntry
  /-- Finalized in the bucket, read-only in the local directory. -/
  sealed : Bool
  deriving DecidableEq, Repr

structure WalStore where
  kind : BackendKind
  logs : AList fun _ : Nat => LogFile
  done : Nat → Option Bytes
  pack : Nat → Option Bytes
  idx : Nat → Option Bytes

inductive AppendFault where
  | append
  | flush
  deriving DecidableEq, Repr

namespace WalStore

def empty (kind : BackendKind) : WalStore := ⟨kind, ∅, fun _ => none, fun _ => none, fun _ => none⟩

def listLogSequences (s : WalStore) : List Nat := s.logs.keys.insertionSort (· ≤ ·)

/-- A lookup that fails reads as a log that is not done. -/
def isLogDone (s : WalStore) (seq : Nat) (lookupFails : Bool) : Bool :=
  !lookupFails && (s.done seq).isSome

def setLog (s : WalStore) (seq : Nat) (log : LogFile) : WalStore :=
  { s with logs := s.logs.insert seq log }

def sealLog (s : WalStore) (seq : Nat) : WalStore :=
  match s.logs.lookup seq with
  | some log => s.setLog seq { log with sealed := true }
  | none => s

/-- Whatever goes wrong with one of the logs is only noted down. -/
def lockoutZombies (s : WalStore) (fails : Nat → Bool) (previousSeqs : List Nat) : WalStore :=
  previousSeqs.foldl (fun s seq => if fails seq then s else s.sealLog seq) s

/-- A local log is opened for appending and so must be writable; an appendable object starts empty. -/
def openWriter (s : WalStore) (seq : Nat) : Except Error Unit × WalStore :=
  match s.kind, s.logs.lookup seq with
  | .localFs, some log => if log.sealed then (.error (.sealed seq), s) else (.ok (), s)
  | _, _ => (.ok (), s.setLog seq ⟨[], false⟩)

/-- `append_entry` and `flush` of a writer. An open local file takes data whatever its permissions. -/
def appendEntry (s : WalStore) (seq : Nat) (entry : WalEntry) (fault : Option AppendFault) :
    Except Error Unit × WalStore :=
  match s.logs.lookup seq with
  | none => (.error .io, s)
  | some log =>
    if s.kind = .gcs ∧ log.sealed then (.error (.sealed seq), s)
    else
      match fault with
      | some .append => (.error .io, s)
      | some .flush => (.error .io, s.setLog seq { log with entries := log.entries ++ [entry] })
      | none => (.ok (), s.setLog seq { log with entries := log.entries ++ [entry] })

/-- `finalize` of a writer. -/
def finalizeWriter (s : WalStore) (seq : Nat) (fails : Bool) : Except Error Unit × WalStore :=
  match s.kind with
  | .localFs => if fails then (.error .io, s) else (.ok (), s)
  | .gcs =>
    match s.logs.lookup seq with
    | none => (.error .io, s)
    | some log =>
      if log.sealed then (.error (.sealed seq), s)
      else if fails then (.error .io, s)
      else (.ok (), s.sealLog seq)

/-! ### What sealing leaves alone -/

theorem mem_listLogSequences (s : WalStore) (seq : Nat) : seq ∈ s.listLogSequences ↔ seq ∈ s.logs := by
  rw [listLogSequences, List.mem_insertionSort, AList.mem_keys]

theorem listLogSequences_congr (s t : WalStore) (h : ∀ seq, seq ∈ s.logs ↔ seq ∈ t.logs) :
    s.listLogSequences = t.listLogSequences := by
  have hperm : s.logs.keys.Perm t.logs.keys :=
    (List.perm_ext_iff_of_nodup s.logs.keys_nodup t.logs.keys_nodup).mpr fun seq => h seq
  exact List.Perm.eq_of_pairwise' (List.pairwise_insertionSort _ _) (List.pairwise_insertionSort _ _)
    (((List.perm_insertionSort _ _).trans hperm).trans (List.perm_insertionSort _ _).symm)

/-- Two stores that differ only in which logs are sealed. -/
structure SameLogs (s t : WalStore) : Prop where
  kind : t.kind = s.kind
  done : t.done = s.done
  pack : t.pack = s.pack
  idx : t.idx = s.idx
  entries : ∀ seq, (t.logs.lookup seq).map LogFile.entries = (s.logs.lookup seq).map LogFile.entries

theorem SameLogs.refl (s : WalStore) : SameLogs s s := ⟨rfl, rfl, rfl, rfl, fun _ => rfl⟩

theorem SameLogs.trans {s t u : WalStore} (h : SameLogs s t) (h' : SameLogs t u) : SameLogs s u :=
  ⟨h'.kind.trans h.kind, h'.done.trans h.done, h'.pack.trans h.pack, h'.idx.trans h.idx,
    fun seq => (h'.entries seq).trans (h.entries seq)⟩

theorem SameLogs.mem {s t : WalStore} (h : SameLogs s t) (seq : Nat) : seq ∈ t.logs ↔ seq ∈ s.logs := by
  have := congrArg Option.isSome (h.entries seq)
  simp only [Option.isSome_map] at this
  rw [← AList.lookup_isSome, ← AList.lookup_isSome, this]

theorem SameLogs.listLogSequences {s t : WalStore} (h : SameLogs s t) :
    t.listLogSequences = s.listLogSequences :=
  listLogSequences_congr t s h.mem

theorem sealLog_sameLogs (s : WalStore) (seq : Nat) : SameLogs s (s.sealLog seq) := by
  unfold sealLog
  split
  · rename_i log hlog
    refine ⟨rfl, rfl, rfl, rfl, fun i => ?_⟩
    by_cases hi : i = seq
    · subst hi; simp [setLog, hlog]
    · simp [setLog, AList.lookup_insert_ne hi]
  · exact .refl s

theorem lockoutZombies_sameLogs (s : WalStore) (fails : Nat → Bool) (seqs : List Nat) :
    SameLogs s (s.lockoutZombies fails seqs) := by
  induction seqs generalizing s with
  | nil => exact .refl s
  | cons seq seqs ih =>
    rw [lockoutZombies, List.foldl_cons, ← lockoutZombies]
    refine SameLogs.trans ?_ (ih _)
    split
    · exact .refl s
    · exact sealLog_sameLogs s seq

theorem finalizeWriter_sameLogs (s : WalStore) (seq : Nat) (fails : Bool) :
    SameLogs s (s.finalizeWriter seq fails).2 := by
  unfold finalizeWriter
  split
  · split_ifs <;> exact .refl s
  · split
    · exact .refl s
    · split_ifs
      · exact .refl s
      · exact .refl s
      · exact sealLog_sameLogs s seq

end WalStore

/-! ## Durable writes -/

/-- The objects and files that a recovery writes. -/
inductive DurableWrite where
  | repo (name : Str) (data : Bytes)
  | done (seq : Nat) (data : Bytes)
  | pack (seq : Nat) (data : Bytes)
  | idx (seq : Nat) (data : Bytes)
  deriving DecidableEq, Repr

namespace DurableWrite

/-- The bytes that a crash in the middle of a write leaves. -/
def cut (n : Nat) (data : Bytes) : Bytes := data.take (min n (data.length - 1))

def torn (n : Nat) : DurableWrite → Option DurableWrite
  | .repo _ _ => none
  | .done seq data => some (.done seq (cut n data))
  | .pack seq data => some (.pack seq (cut n data))
  | .idx seq data => some (.idx seq (cut n data))

theorem cut_length_lt (n : Nat) (data : Bytes) (h : data ≠ []) : (cut n data).length < data.length := by
  have := List.length_pos_iff.mpr h
  simp only [cut, List.length_take]
  omega

theorem cut_ne (n : Nat) (data : Bytes) (h : data ≠ []) : cut n data ≠ data := by
  intro heq
  have := cut_length_lt n data h
  rw [heq] at this
  omega

end DurableWrite

/-- Where a recovery crashes: after so many writes, and perhaps so far into the next one. -/
structure CrashPoint where
  writes : Nat
  torn : Option Nat
  deriving DecidableEq, Repr

/-- The writes of `mark_log_done`, in order. -/
def markLogDone (seq : Nat) (newCommitOid : Str) (packData idxData : Option Bytes) : List DurableWrite :=
  .done seq (asBytes (newCommitOid ++ ['\n'])) ::
    ((packData.map (DurableWrite.pack seq)).toList ++ (idxData.map (DurableWrite.idx seq)).toList)

end GitNfs
