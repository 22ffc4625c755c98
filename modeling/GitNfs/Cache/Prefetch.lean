import GitNfs.Cache.Blobs

/-! # What a prefetch is for

The blobs of a directory are fetched ahead, so that the reads which follow find them. Other calls are served
meanwhile, the memory cache drops what it likes, and the process may end later on.
-/

namespace GitNfs.BlobCalls

/-! ## What a call has before it -/

/-- The call writes the file of a blob next. -/
def Phase.Writes (oid : Str) : Phase → Prop
  | .storeDisk oid' _ _ _ => oid' = oid
  | _ => False

/-- The call puts a blob into memory that it read from a file. -/
def Phase.Promotes (oid : Str) : Phase → Prop
  | .promote oid' _ => oid' = oid
  | _ => False

/-- The call is on its way to ask the source for a blob. -/
def Phase.Asks (oid : Str) : Phase → Prop
  | .join oid' => oid' = oid
  | .wait oid' => oid' = oid
  | .fetch oid' => oid' = oid
  | .scan _ missing => oid ∈ missing
  | .scanDisk _ _ missing => oid ∈ missing
  | .prefetch missing _ => oid ∈ missing
  | .store _ (.prefetch missing _) => oid ∈ missing
  | .storeDisk _ _ _ (.prefetch missing _) => oid ∈ missing
  | _ => False

/-- A prefetch has yet to look at a blob, to ask for it or to store it, or it gave up. -/
def Phase.Awaits (oid : Str) : Phase → Prop
  | .scan left missing => oid ∈ left ∨ oid ∈ missing
  | .scanDisk oid' left missing => oid = oid' ∨ oid ∈ left ∨ oid ∈ missing
  | .prefetch missing _ => oid ∈ missing
  | .store left (.prefetch missing _) => oid ∈ left.map Prod.fst ∨ oid ∈ missing
  | .storeDisk _ _ left (.prefetch missing _) => oid ∈ left.map Prod.fst ∨ oid ∈ missing
  | .ended (.prefetched (.error _)) => True
  | _ => False

theorem hasBlob_putBlob {c : DiskCache} {oid : Str} (data : Bytes) (fault : Option PutFault) {oid' : Str}
    (h : c.hasBlob oid' = true) : (c.putBlob oid data fault).hasBlob oid' = true := by
  have hinsert : ∀ bytes : Bytes, DiskCache.hasBlob ⟨c.files.insert (DiskCache.blobPath oid) bytes⟩ oid' = true := by
    intro bytes
    have hget := c.getBlob_insert oid oid' bytes
    unfold DiskCache.getBlob at hget
    unfold DiskCache.hasBlob at h ⊢
    rw [hget]
    split
    · rfl
    · exact h
  unfold DiskCache.putBlob
  split
  · exact hinsert data
  · exact h
  · exact hinsert _

/-- A file is there unless nothing could be written. -/
theorem hasBlob_written (c : DiskCache) (oid : Str) (data : Bytes) {fault : Option PutFault}
    (hfault : fault ≠ some .refused) : (c.putBlob oid data fault).hasBlob oid = true := by
  have hinsert : ∀ bytes : Bytes, DiskCache.hasBlob ⟨c.files.insert (DiskCache.blobPath oid) bytes⟩ oid = true := by
    intro bytes
    unfold DiskCache.hasBlob
    rw [AList.lookup_insert]
    rfl
  unfold DiskCache.putBlob
  split
  · exact hinsert data
  · exact absurd rfl hfault
  · exact hinsert _

namespace Engine

/-! ## What one step does -/

/-- What the next operation of a call, or an answer to it, does to the caches and to the call. -/
structure Moved (e : Engine) (i : Nat) (phase : Phase) (e' : Engine) (phase' : Phase) : Prop where
  calls : e'.calls = Function.update e.calls i (some phase')
  memory : ∀ o ∈ e'.memory.entries, o ∈ e.memory.entries ∨ phase.Promotes o.1 ∨ phase'.Writes o.1
  disk : ∀ oid, e.disk.hasBlob oid = true → e'.disk.hasBlob oid = true
  promotes : ∀ oid, phase'.Promotes oid → e.disk.hasBlob oid = true
  asks : ∀ oid, phase'.Asks oid → phase.Asks oid ∨ e.disk.hasBlob oid = false

/-- What it does for the blobs that are to come, where nothing fails. -/
structure Brings (e : Engine) (phase : Phase) (e' : Engine) (phase' : Phase) : Prop where
  writes : ∀ oid, phase.Writes oid → e'.disk.hasBlob oid = true
  awaits : ∀ oid, phase.Awaits oid →
    phase'.Awaits oid ∨ phase'.Writes oid ∨ oid ∈ e.memory.entries.map Prod.fst ∨ e.disk.hasBlob oid = true

theorem Moved.goto {e : Engine} (i : Nat) {phase phase' : Phase} (hpromotes : ∀ oid, ¬ phase'.Promotes oid)
    (hasks : ∀ oid, phase'.Asks oid → phase.Asks oid ∨ e.disk.hasBlob oid = false) :
    Moved e i phase (e.goto i phase') phase' where
  calls := rfl
  memory _ ho := .inl ho
  disk _ h := h
  promotes oid h := absurd h (hpromotes oid)
  asks := hasks

/-- The same where the memory cache was asked, or something was put into it. -/
theorem Moved.withMemory {e : Engine} {i : Nat} {phase phase' : Phase} {e' : Engine}
    (h : Moved e i phase e' phase') {memory : MemoryCache}
    (hmemory : ∀ o ∈ memory.entries, o ∈ e.memory.entries ∨ phase.Promotes o.1 ∨ phase'.Writes o.1) :
    Moved e i phase { e' with memory } phase' := ⟨h.calls, hmemory, h.disk, h.promotes, h.asks⟩

theorem Brings.of_not {e e' : Engine} {phase phase' : Phase} (hwrites : ∀ oid, ¬ phase.Writes oid)
    (hawaits : ∀ oid, ¬ phase.Awaits oid) : Brings e phase e' phase' :=
  ⟨fun oid h => absurd h (hwrites oid), fun oid h => absurd h (hawaits oid)⟩

/-- A look into the memory cache that misses or hits brings nothing new. -/
theorem Moved.looked {e : Engine} {i : Nat} {phase phase' : Phase} {oid : Str} {found : Option Bytes}
    {memory : MemoryCache} (hget : e.memory.get oid = (found, memory)) (h : Moved e i phase (e.goto i phase') phase') :
    Moved e i phase ({ e with memory }.goto i phase') phase' := by
  apply h.withMemory
  intro o ho
  exact .inl ((LruCache.get_entries hget).2 o ho)

theorem mem_keys_of_get {e : Engine} {oid : Str} {data : Bytes} {memory : MemoryCache}
    (hget : e.memory.get oid = (some data, memory)) : oid ∈ e.memory.entries.map Prod.fst :=
  List.mem_map.mpr ⟨(oid, data), (LruCache.get_entries hget).1 data rfl, rfl⟩

/-- The operations of `get_blob_arc` and of a prefetch. -/
theorem advance_moved {e e' : Engine} {i : Nat} {fault : Option PutFault} {phase : Phase}
    (hstep : e.advance i fault phase = some e') :
    ∃ phase', Moved e i phase e' phase' ∧ (fault ≠ some .refused → Brings e phase e' phase') := by
  cases phase with
  | memory oid again =>
    unfold advance at hstep
    dsimp only at hstep
    split at hstep <;> rename_i hget <;> obtain rfl := Option.some.inj hstep
    · refine ⟨_, Moved.looked hget (.goto i ?_ ?_), fun _ => .of_not ?_ ?_⟩ <;> rintro _ ⟨⟩
    · refine ⟨_, Moved.looked hget (.goto i ?_ ?_), fun _ => .of_not ?_ ?_⟩ <;> rintro _ ⟨⟩
  | disk oid again =>
    unfold advance at hstep
    dsimp only at hstep
    split at hstep <;> rename_i hget <;> obtain rfl := Option.some.inj hstep
    · refine ⟨_, ⟨rfl, fun o ho => .inl ho, fun _ h => h, ?_, ?_⟩, fun _ => .of_not ?_ ?_⟩
      · rintro _ rfl
        unfold DiskCache.hasBlob
        unfold DiskCache.getBlob at hget
        rw [hget]
        rfl
      all_goals rintro _ ⟨⟩
    · have hasks : ∀ oid', oid = oid' → e.disk.hasBlob oid' = false := by
        rintro _ rfl
        unfold DiskCache.hasBlob
        unfold DiskCache.getBlob at hget
        rw [hget]
        rfl
      cases again with
      | false =>
        refine ⟨_, .goto i ?_ fun oid' h => .inr (hasks oid' h), fun _ => .of_not ?_ ?_⟩ <;> rintro _ ⟨⟩
      | true =>
        refine ⟨_, .goto i ?_ fun oid' h => .inr (hasks oid' h), fun _ => .of_not ?_ ?_⟩ <;> rintro _ ⟨⟩
  | promote oid data =>
    obtain rfl := Option.some.inj hstep
    refine ⟨.ended (.blob oid (.ok data)), Moved.withMemory (.goto i ?_ ?_) ?_, fun _ => .of_not ?_ ?_⟩
    · rintro _ ⟨⟩
    · rintro _ ⟨⟩
    · intro o ho
      rcases LruCache.mem_put ho with ho | rfl
      · exact .inl ho
      · exact .inr (.inl rfl)
    · rintro _ ⟨⟩
    · rintro _ ⟨⟩
  | join oid =>
    unfold advance at hstep
    dsimp only at hstep
    split_ifs at hstep <;> obtain rfl := Option.some.inj hstep
    · refine ⟨_, .goto i ?_ fun _ h => .inl h, fun _ => .of_not ?_ ?_⟩ <;> rintro _ ⟨⟩
    · refine ⟨.fetch oid, ⟨rfl, fun o ho => .inl ho, fun _ h => h, ?_, fun _ h => .inl h⟩, fun _ => .of_not ?_ ?_⟩ <;>
        rintro _ ⟨⟩
  | wait oid =>
    obtain rfl := Option.some.inj hstep
    refine ⟨_, .goto i ?_ ?_, fun _ => .of_not ?_ ?_⟩ <;> rintro _ ⟨⟩
  | fetch oid => simp [advance] at hstep
  | store left next =>
    cases left with
    | cons o left =>
      obtain rfl := Option.some.inj hstep
      refine ⟨.storeDisk o.1 o.2 left next, Moved.withMemory (.goto i ?_ ?_) ?_, fun _ => ⟨?_, ?_⟩⟩
      · rintro _ ⟨⟩
      · intro oid hasks
        cases next with
        | prefetch missing fetched => exact .inl hasks
        | _ => cases hasks
      · intro o' ho'
        rcases LruCache.mem_put ho' with ho' | rfl
        · exact .inl ho'
        · exact .inr (.inr rfl)
      · rintro _ ⟨⟩
      · intro oid hawaits
        cases next with
        | prefetch missing fetched =>
          rcases hawaits with hleft | hmissing
          · rcases List.mem_cons.mp hleft with rfl | hleft
            · exact .inr (.inl rfl)
            · exact .inl (.inl hleft)
          · exact .inl (.inr hmissing)
        | _ => cases hawaits
    | nil =>
      cases next with
      | answer oid matched =>
        cases matched with
        | none =>
          obtain rfl := Option.some.inj hstep
          refine ⟨_, .goto i ?_ ?_, fun _ => .of_not ?_ ?_⟩ <;> rintro _ ⟨⟩
        | some data =>
          obtain rfl := Option.some.inj hstep
          refine ⟨_, .goto i ?_ ?_, fun _ => .of_not ?_ ?_⟩ <;> rintro _ ⟨⟩
      | prefetch missing fetched =>
        obtain rfl := Option.some.inj hstep
        refine ⟨_, .goto i ?_ fun _ h => .inl h, fun _ => ⟨?_, ?_⟩⟩
        · rintro _ ⟨⟩
        · rintro _ ⟨⟩
        · rintro oid (hleft | hmissing)
          · cases hleft
          · exact .inl hmissing
      | recovered objects =>
        obtain rfl := Option.some.inj hstep
        refine ⟨.ended .recovered, ⟨rfl, fun o ho => .inl ho, fun _ h => h, ?_, ?_⟩, fun _ => .of_not ?_ ?_⟩ <;>
          rintro _ ⟨⟩
  | storeDisk oid data left next =>
    obtain rfl := Option.some.inj hstep
    refine ⟨.store left next, ⟨rfl, fun o ho => .inl ho, fun _ h => hasBlob_putBlob data fault h, ?_, ?_⟩,
      fun hfault => ⟨?_, ?_⟩⟩
    · rintro _ ⟨⟩
    · intro oid' hasks
      cases next with
      | prefetch missing fetched => exact .inl hasks
      | _ => cases hasks
    · rintro _ rfl
      exact hasBlob_written e.disk oid data hfault
    · intro oid' hawaits
      cases next with
      | prefetch missing fetched => exact .inl hawaits
      | _ => cases hawaits
  | lookup oid =>
    unfold advance at hstep
    dsimp only at hstep
    split at hstep <;> rename_i hget <;> obtain rfl := Option.some.inj hstep
    · refine ⟨_, Moved.looked hget (.goto i ?_ ?_), fun _ => .of_not ?_ ?_⟩ <;> rintro _ ⟨⟩
    · refine ⟨_, Moved.looked hget (.goto i ?_ ?_), fun _ => .of_not ?_ ?_⟩ <;> rintro _ ⟨⟩
  | leave oid res =>
    obtain rfl := Option.some.inj hstep
    refine ⟨.ended (.blob oid res), ⟨rfl, fun o ho => .inl ho, fun _ h => h, ?_, ?_⟩, fun _ => .of_not ?_ ?_⟩ <;>
      rintro _ ⟨⟩
  | scan left missing =>
    cases left with
    | nil =>
      obtain rfl := Option.some.inj hstep
      refine ⟨_, .goto i ?_ fun _ h => .inl h, fun _ => ⟨?_, ?_⟩⟩
      · rintro _ ⟨⟩
      · rintro _ ⟨⟩
      · rintro oid (hleft | hmissing)
        · cases hleft
        · exact .inl hmissing
    | cons oid left =>
      unfold advance at hstep
      dsimp only at hstep
      split at hstep <;> rename_i hget <;> obtain rfl := Option.some.inj hstep
      · refine ⟨_, Moved.looked hget (.goto i ?_ fun _ h => .inl h), fun _ => ⟨?_, ?_⟩⟩
        · rintro _ ⟨⟩
        · rintro _ ⟨⟩
        · rintro oid' (hleft | hmissing)
          · rcases List.mem_cons.mp hleft with rfl | hleft
            · exact .inr (.inr (.inl (mem_keys_of_get hget)))
            · exact .inl (.inl hleft)
          · exact .inl (.inr hmissing)
      · refine ⟨_, Moved.looked hget (.goto i ?_ fun _ h => .inl h), fun _ => ⟨?_, ?_⟩⟩
        · rintro _ ⟨⟩
        · rintro _ ⟨⟩
        · rintro oid' (hleft | hmissing)
          · rcases List.mem_cons.mp hleft with rfl | hleft
            · exact .inl (.inl rfl)
            · exact .inl (.inr (.inl hleft))
          · exact .inl (.inr (.inr hmissing))
  | scanDisk oid left missing =>
    obtain rfl := Option.some.inj hstep
    refine ⟨_, .goto i ?_ ?_, fun _ => ⟨?_, ?_⟩⟩
    · rintro _ ⟨⟩
    · intro oid' hasks
      show oid' ∈ missing ∨ _
      unfold Phase.Asks at hasks
      dsimp only at hasks
      split at hasks
      · exact .inl hasks
      · rename_i hnot
        rcases List.mem_append.mp hasks with hmem | hmem
        · exact .inl hmem
        · rw [List.mem_singleton.mp hmem]
          exact .inr (Bool.eq_false_iff.mpr hnot)
    · rintro _ ⟨⟩
    · intro oid' hawaits
      have hgrown : oid' ∈ missing → oid' ∈ if e.disk.hasBlob oid = true then missing else missing ++ [oid] := by
        intro hmem
        split
        · exact hmem
        · exact List.mem_append_left _ hmem
      rcases hawaits with rfl | hleft | hmissing
      · by_cases hhas : e.disk.hasBlob oid' = true
        · exact .inr (.inr (.inr hhas))
        · refine .inl (.inr ?_)
          rw [if_neg hhas]
          exact List.mem_append_right _ (List.mem_singleton.mpr rfl)
      · exact .inl (.inl hleft)
      · exact .inl (.inr (hgrown hmissing))
  | prefetch missing fetched =>
    cases missing with
    | nil =>
      obtain rfl := Option.some.inj hstep
      refine ⟨_, .goto i ?_ ?_, fun _ => ⟨?_, ?_⟩⟩ <;> rintro _ ⟨⟩
    | cons oid missing => simp [advance] at hstep
  | ended outcome => simp [advance] at hstep

/-- Nothing is refused by the disk, and what a prefetch asks for comes back. -/
def Complete (e : Engine) : Action → Prop
  | .advance _ fault => fault ≠ some .refused
  | .respond i (.pack bytes objects) => ∀ missing fetched, e.calls i = some (.prefetch missing fetched) →
      bytes ≠ [] ∧ ∀ oid ∈ missing.take 64, oid ∈ objects.map Prod.fst
  | .respond _ (.raws datas) => ∀ data ∈ datas, data.isSome
  | _ => True

theorem found_keys {chunk : List Str} {datas : List (Option Bytes)} (hlength : datas.length = chunk.length)
    (hall : ∀ data ∈ datas, data.isSome) : (found chunk datas).map Prod.fst = chunk := by
  induction chunk generalizing datas with
  | nil => rfl
  | cons oid chunk ih =>
    cases datas with
    | nil => simp at hlength
    | cons data datas =>
      obtain ⟨hdata, hrest⟩ := List.forall_mem_cons.mp hall
      obtain ⟨bytes, rfl⟩ := Option.isSome_iff_exists.mp hdata
      have hih := ih (Nat.succ.inj hlength) hrest
      unfold found at hih ⊢
      rw [List.zip_cons_cons, List.filterMap_cons]
      simp only [Option.map_some, List.map_cons, hih]

/-- The chunk that was asked for is there, the rest is to come. -/
theorem brings_chunk {e e' : Engine} {missing : List Str} {fetched fetched' : Nat} {left : List (Str × Bytes)}
    (hchunk : ∀ oid ∈ missing.take 64, oid ∈ left.map Prod.fst) :
    Brings e (.prefetch missing fetched) e' (.store left (.prefetch (missing.drop 64) fetched')) where
  writes _ h := by cases h
  awaits oid h := by
    have hsplit : oid ∈ missing.take 64 ++ missing.drop 64 := by
      rw [List.take_append_drop]
      exact h
    rcases List.mem_append.mp hsplit with hmem | hmem
    · exact .inl (.inl (hchunk oid hmem))
    · exact .inl (.inr hmem)

section Source

variable {inflate : Bytes → Option (Bytes × Nat)}

/-- The answers of the source. -/
theorem respond_moved {e e' : Engine} {i : Nat} {r : Response} {phase : Phase} (hcall : e.calls i = some phase)
    (hstep : e.respond inflate i r phase = some e') :
    ∃ phase', Moved e i phase e' phase' ∧ (e.Complete (.respond i r) → Brings e phase e' phase') := by
  cases phase with
  | fetch oid =>
    have hnot : ∀ phase' : Phase, Brings e (.fetch oid) e' phase' := by
      intro phase'
      apply Brings.of_not <;> rintro _ ⟨⟩
    cases r with
    | failed =>
      obtain rfl := Option.some.inj hstep
      refine ⟨_, .goto i ?_ ?_, fun _ => hnot _⟩ <;> rintro _ ⟨⟩
    | pack bytes objects =>
      unfold respond at hstep
      dsimp only at hstep
      split_ifs at hstep
      split at hstep <;> obtain rfl := Option.some.inj hstep
      · refine ⟨_, .goto i ?_ ?_, fun _ => hnot _⟩ <;> rintro _ ⟨⟩
      · refine ⟨_, .goto i ?_ ?_, fun _ => hnot _⟩ <;> rintro _ ⟨⟩
    | raw data =>
      unfold respond at hstep
      dsimp only at hstep
      split_ifs at hstep
      obtain rfl := Option.some.inj hstep
      refine ⟨_, .goto i ?_ ?_, fun _ => hnot _⟩ <;> rintro _ ⟨⟩
    | raws datas => simp [respond] at hstep
  | prefetch missing fetched =>
    cases missing with
    | nil => cases r <;> simp [respond] at hstep
    | cons oid missing =>
      have hdrop : ∀ oid', oid' ∈ (oid :: missing).drop 64 → oid' ∈ oid :: missing ∨ e.disk.hasBlob oid' = false :=
        fun oid' h => .inl (List.mem_of_mem_drop h)
      cases r with
      | failed =>
        unfold respond at hstep
        dsimp only at hstep
        split_ifs at hstep
        obtain rfl := Option.some.inj hstep
        refine ⟨_, .goto i ?_ ?_, fun _ => ⟨?_, fun _ _ => .inl trivial⟩⟩ <;> rintro _ ⟨⟩
      | pack bytes objects =>
        unfold respond at hstep
        dsimp only at hstep
        by_cases hgcs : e.gcs = true
        · simp [hgcs] at hstep
        rw [if_neg hgcs] at hstep
        by_cases hempty : bytes = []
        · rw [if_pos hempty] at hstep
          obtain rfl := Option.some.inj hstep
          refine ⟨_, .goto i ?_ hdrop, fun hcomplete => absurd hempty (hcomplete _ _ hcall).1⟩
          rintro _ ⟨⟩
        rw [if_neg hempty] at hstep
        split at hstep <;> obtain rfl := Option.some.inj hstep
        · refine ⟨_, .goto i ?_ ?_, fun _ => ⟨?_, fun _ _ => .inl trivial⟩⟩ <;> rintro _ ⟨⟩
        · refine ⟨_, .goto i ?_ hdrop, fun hcomplete => brings_chunk ?_⟩
          · rintro _ ⟨⟩
          · intro oid' hmem
            unfold contents
            rw [List.map_map]
            exact (hcomplete _ _ hcall).2 oid' hmem
      | raw data => simp [respond] at hstep
      | raws datas =>
        unfold respond at hstep
        dsimp only at hstep
        split_ifs at hstep with hchunk
        obtain rfl := Option.some.inj hstep
        refine ⟨_, .goto i ?_ hdrop, fun hcomplete => brings_chunk ?_⟩
        · rintro _ ⟨⟩
        · intro oid' hmem
          rw [found_keys hchunk.2 hcomplete]
          exact hmem
  | _ => cases r <;> simp [respond] at hstep

/-- A call that begins has nothing before it. -/
structure Opens (e : Engine) (i : Nat) (phase : Phase) (e' : Engine) : Prop where
  free : e.calls i = none
  goto : e' = e.goto i phase
  writes : ∀ oid, ¬ phase.Writes oid
  promotes : ∀ oid, ¬ phase.Promotes oid
  asks : ∀ oid, ¬ phase.Asks oid

/-- All that a step can be. -/
theorem step_cases {e e' : Engine} {a : Action} (hstep : e.step inflate a = some e') :
    (∃ i phase, Opens e i phase e') ∨
    (∃ i phase phase', e.calls i = some phase ∧ Moved e i phase e' phase' ∧
      (e.Complete a → Brings e phase e' phase')) ∨
    ∃ trees, a = .restart trees ∧ e' = { initial e.gcs trees with disk := e.disk } := by
  have hfree : ∀ {i}, ¬ (e.calls i).isSome = true → e.calls i = none := by
    intro i h
    simpa using h
  cases a with
  | getBlob i oid =>
    unfold step at hstep
    dsimp only at hstep
    split_ifs at hstep with hbusy
    obtain rfl := Option.some.inj hstep
    refine .inl ⟨i, _, hfree hbusy, rfl, ?_, ?_, ?_⟩ <;> rintro _ ⟨⟩
  | prefetch i treeOid =>
    unfold step at hstep
    dsimp only at hstep
    by_cases hbusy : (e.calls i).isSome = true
    · simp [hbusy] at hstep
    rw [if_neg hbusy] at hstep
    split at hstep <;> obtain rfl := Option.some.inj hstep
    · refine .inl ⟨i, _, hfree hbusy, rfl, ?_, ?_, ?_⟩ <;> rintro _ ⟨⟩
    · refine .inl ⟨i, _, hfree hbusy, rfl, ?_, ?_, ?_⟩ <;> rintro _ ⟨⟩
  | applyRecovered i objects =>
    unfold step at hstep
    dsimp only at hstep
    split_ifs at hstep with hbusy
    obtain rfl := Option.some.inj hstep
    refine .inl ⟨i, _, hfree hbusy, rfl, ?_, ?_, ?_⟩ <;> rintro _ ⟨⟩
  | advance i fault =>
    obtain ⟨phase, hcall, hstep⟩ := Option.bind_eq_some_iff.mp hstep
    obtain ⟨phase', hmoved, hbrings⟩ := advance_moved hstep
    exact .inr (.inl ⟨i, phase, phase', hcall, hmoved, hbrings⟩)
  | respond i r =>
    obtain ⟨phase, hcall, hstep⟩ := Option.bind_eq_some_iff.mp hstep
    obtain ⟨phase', hmoved, hbrings⟩ := respond_moved hcall hstep
    exact .inr (.inl ⟨i, phase, phase', hcall, hmoved, hbrings⟩)
  | restart trees => exact .inr (.inr ⟨trees, rfl, (Option.some.inj hstep).symm⟩)

end Source

/-! ## What is in memory is on disk, or about to be -/

def Held (e : Engine) (oid : Str) : Prop :=
  e.disk.hasBlob oid = true ∨ ∃ j phase, e.calls j = some phase ∧ phase.Writes oid

structure Backed (e : Engine) : Prop where
  memory : ∀ o ∈ e.memory.entries, e.Held o.1
  promotes : ∀ j phase oid, e.calls j = some phase → phase.Promotes oid → e.disk.hasBlob oid = true

theorem Moved.self {e e' : Engine} {i : Nat} {phase phase' : Phase} (h : Moved e i phase e' phase') :
    e'.calls i = some phase' := by
  rw [h.calls, Function.update_self]

theorem Moved.other {e e' : Engine} {i j : Nat} {phase phase' : Phase} (h : Moved e i phase e' phase')
    (hne : j ≠ i) : e'.calls j = e.calls j := by
  rw [h.calls, Function.update_of_ne hne]

theorem Held.moved {e e' : Engine} {i : Nat} {phase phase' : Phase} {oid : Str} (h : e.Held oid)
    (hcall : e.calls i = some phase) (hmoved : Moved e i phase e' phase') (hbrings : Brings e phase e' phase') :
    e'.Held oid := by
  rcases h with hdisk | ⟨j, phase₀, hj, hwrites⟩
  · exact .inl (hmoved.disk oid hdisk)
  · by_cases hji : j = i
    · rw [hji, hcall, Option.some.injEq] at hj
      exact .inl (hbrings.writes oid (hj ▸ hwrites))
    · exact .inr ⟨j, phase₀, by rw [hmoved.other hji, hj], hwrites⟩

theorem Held.opens {e e' : Engine} {i : Nat} {phase : Phase} {oid : Str} (h : e.Held oid)
    (hopens : Opens e i phase e') : e'.Held oid := by
  obtain rfl := hopens.goto
  rcases h with hdisk | ⟨j, phase₀, hj, hwrites⟩
  · exact .inl hdisk
  · refine .inr ⟨j, phase₀, ?_, hwrites⟩
    have hne : j ≠ i := by
      rintro rfl
      rw [hopens.free] at hj
      cases hj
    unfold Engine.goto
    dsimp only
    rw [Function.update_of_ne hne, hj]

theorem Backed.moved {e e' : Engine} {i : Nat} {phase phase' : Phase} (h : e.Backed)
    (hcall : e.calls i = some phase) (hmoved : Moved e i phase e' phase') (hbrings : Brings e phase e' phase') :
    e'.Backed where
  memory o ho := by
    rcases hmoved.memory o ho with hold | hpromotes | hwrites
    · exact (h.memory o hold).moved hcall hmoved hbrings
    · exact .inl (hmoved.disk o.1 (h.promotes i phase o.1 hcall hpromotes))
    · exact .inr ⟨i, phase', hmoved.self, hwrites⟩
  promotes j phase₀ oid hj hpromotes := by
    by_cases hji : j = i
    · rw [hji, hmoved.self, Option.some.injEq] at hj
      exact hmoved.disk oid (hmoved.promotes oid (hj ▸ hpromotes))
    · rw [hmoved.other hji] at hj
      exact hmoved.disk oid (h.promotes j phase₀ oid hj hpromotes)

theorem Backed.opens {e e' : Engine} {i : Nat} {phase : Phase} (h : e.Backed) (hopens : Opens e i phase e') :
    e'.Backed where
  memory o ho := by
    have hold : o ∈ e.memory.entries := by
      obtain rfl := hopens.goto
      exact ho
    exact (h.memory o hold).opens hopens
  promotes j phase₀ oid hj hpromotes := by
    obtain rfl := hopens.goto
    unfold Engine.goto at hj
    dsimp only at hj
    by_cases hji : j = i
    · rw [hji, Function.update_self, Option.some.injEq] at hj
      exact absurd (hj ▸ hpromotes) (hopens.promotes oid)
    · rw [Function.update_of_ne hji] at hj
      exact h.promotes j phase₀ oid hj hpromotes

theorem initial_backed (gcs : Bool) (trees : Str → Option GitTree) (disk : DiskCache) :
    Backed { initial gcs trees with disk } where
  memory o ho := by simp [initial, MemoryCache.new, LruCache.empty] at ho
  promotes j phase oid hj := by simp [initial] at hj

section Source

variable {inflate : Bytes → Option (Bytes × Nat)}

theorem step_backed (e : Engine) (a : Action) (e' : Engine) (h : e.Backed) (hcomplete : e.Complete a)
    (hstep : e.step inflate a = some e') : e'.Backed := by
  rcases step_cases hstep with ⟨i, phase, hopens⟩ | ⟨i, phase, phase', hcall, hmoved, hbrings⟩ | ⟨trees, -, rfl⟩
  · exact h.opens hopens
  · exact h.moved hcall hmoved (hbrings hcomplete)
  · exact initial_backed e.gcs trees e.disk

/-! ## A prefetch under way -/

/-- What a prefetch is to bring: it is still to come, or it is held. -/
def Coming (oid : Str) (i : Nat) (e : Engine) : Prop :=
  ∃ phase, e.calls i = some phase ∧ (phase.Awaits oid ∨ e.Held oid)

/-- One step of a process that lives on. -/
theorem step_coming {oid : Str} {i : Nat} (e : Engine) (a : Action) (e' : Engine)
    (h : e.Backed ∧ Coming oid i e) (hok : e.Complete a ∧ ∀ trees, a ≠ .restart trees)
    (hstep : e.step inflate a = some e') : e'.Backed ∧ Coming oid i e' := by
  obtain ⟨hbacked, phase₀, hi, hcoming⟩ := h
  obtain ⟨hcomplete, halive⟩ := hok
  refine ⟨step_backed e a e' hbacked hcomplete hstep, ?_⟩
  rcases step_cases hstep with ⟨j, phase, hopens⟩ | ⟨j, phase, phase', hcall, hmoved, hbrings⟩ | ⟨trees, hrestart, -⟩
  · have hne : i ≠ j := by
      rintro rfl
      rw [hopens.free] at hi
      cases hi
    refine ⟨phase₀, ?_, hcoming.imp_right fun h => h.opens hopens⟩
    rw [hopens.goto]
    unfold Engine.goto
    dsimp only
    rw [Function.update_of_ne hne, hi]
  · have hkept : e.Held oid → e'.Held oid := fun h => h.moved hcall hmoved (hbrings hcomplete)
    by_cases hij : i = j
    · subst hij
      rw [hi, Option.some.injEq] at hcall
      subst hcall
      refine ⟨phase', hmoved.self, ?_⟩
      rcases hcoming with hawaits | hheld
      · rcases (hbrings hcomplete).awaits oid hawaits with hawaits | hwrites | hmemory | hdisk
        · exact .inl hawaits
        · exact .inr (.inr ⟨i, phase', hmoved.self, hwrites⟩)
        · obtain ⟨o, ho, rfl⟩ := List.mem_map.mp hmemory
          exact .inr (hkept (hbacked.memory o ho))
        · exact .inr (.inl (hmoved.disk oid hdisk))
      · exact .inr (hkept hheld)
    · exact ⟨phase₀, by rw [hmoved.other hij, hi], hcoming.imp_right hkept⟩
  · exact absurd hrestart (halive trees)

/-! ## What is on disk is not asked for -/

/-- A blob is on disk, and no call that began since asks for it. -/
def Settled (oid : Str) (since : Nat → Prop) (e : Engine) : Prop :=
  e.disk.hasBlob oid = true ∧ ∀ j phase, since j → e.calls j = some phase → ¬ phase.Asks oid

/-- One step, whatever fails in it. -/
theorem step_settled {oid : Str} {since : Nat → Prop} (e : Engine) (a : Action) (e' : Engine)
    (h : Settled oid since e) (hstep : e.step inflate a = some e') : Settled oid since e' := by
  obtain ⟨hdisk, hsettled⟩ := h
  rcases step_cases hstep with ⟨i, phase, hopens⟩ | ⟨i, phase, phase', hcall, hmoved, -⟩ | ⟨trees, -, rfl⟩
  · obtain rfl := hopens.goto
    refine ⟨hdisk, ?_⟩
    intro j phase₀ hsince hj
    unfold Engine.goto at hj
    dsimp only at hj
    by_cases hji : j = i
    · rw [hji, Function.update_self, Option.some.injEq] at hj
      exact hj ▸ hopens.asks oid
    · rw [Function.update_of_ne hji] at hj
      exact hsettled j phase₀ hsince hj
  · refine ⟨hmoved.disk oid hdisk, ?_⟩
    intro j phase₀ hsince hj
    by_cases hji : j = i
    · subst hji
      rw [hmoved.self, Option.some.injEq] at hj
      subst hj
      intro hasks
      rcases hmoved.asks oid hasks with hbefore | hmissing
      · exact hsettled j phase hsince hcall hbefore
      · rw [hdisk] at hmissing
        cases hmissing
    · rw [hmoved.other hji] at hj
      exact hsettled j phase₀ hsince hj
  · refine ⟨hdisk, ?_⟩
    intro j phase₀ _ hj
    simp [initial] at hj

/-- What is on disk stays there, and no call that begins later asks for it, whatever fails. -/
theorem run_settled {oid : Str} {e e' e'' : Engine} {later more : List Action} (hdisk : e.disk.hasBlob oid = true)
    (hlater : Run.run (step inflate) e later = some e') (hmore : Run.run (step inflate) e' more = some e'') :
    e'.disk.hasBlob oid = true ∧
      ∀ j phase, e'.calls j = none → e''.calls j = some phase → ¬ phase.Asks oid := by
  have hstart : Settled oid (fun _ => False) e := ⟨hdisk, fun _ _ hno => hno.elim⟩
  have hmiddle : Settled oid (fun _ => False) e' :=
    Run.invariant (fun s a s' hs _ => step_settled s a s' hs) (Run.meets_true _ _ _) hlater hstart
  refine ⟨hmiddle.1, ?_⟩
  have hnew : Settled oid (fun j => e'.calls j = none) e' := by
    refine ⟨hmiddle.1, ?_⟩
    intro j phase hfree hj
    rw [hfree] at hj
    cases hj
  have hend : Settled oid (fun j => e'.calls j = none) e'' :=
    Run.invariant (fun s a s' hs _ => step_settled s a s' hs) (Run.meets_true _ _ _) hmore hnew
  exact hend.2

end Source

/-- A directory with one file. -/
def oneFile : GitTree := ⟨[⟨.regularFile, "f".toList, hiOid⟩]⟩

/-- The file is missing, comes back, and is stored. -/
def bringOne : List Action :=
  [.advance 0 none, .advance 0 none, .advance 0 none, .respond 0 (.raws [some [104, 105]]), .advance 0 none,
    .advance 0 none, .advance 0 none, .advance 0 none]

theorem bringOne_complete : Run.Meets (step inflateStored) Complete (initial true fun _ => some oneFile)
    ([] ++ .prefetch 0 emptyTreeOid :: bringOne) := by
  refine ⟨trivial, ?_⟩
  rintro _ ⟨⟩
  iterate 3
    refine ⟨nofun, ?_⟩
    rintro _ ⟨⟩
  refine ⟨?_, ?_⟩
  · intro data hdata
    rw [List.mem_singleton.mp hdata]
    rfl
  rintro _ ⟨⟩
  iterate 4
    refine ⟨nofun, ?_⟩
    rintro _ ⟨⟩
  trivial

def readOne : List Action := [.getBlob 1 hiOid, .advance 1 none, .advance 1 none, .advance 1 none]

end Engine

end GitNfs.BlobCalls
