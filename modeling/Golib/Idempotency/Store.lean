import Golib.Lib.Programs
import Mathlib.Data.List.AList

/-! The process-local store of idempotency records, with every call under one mutex. -/
namespace Golib.Idempotency

open List

inductive State where
  | acquired | running | completed | failed | abandoned | expired
  deriving DecidableEq

inductive Outcome where
  | acquired | staleOwnerTakeover | inProgress | replayed | terminalFailure | conflict

inductive Error where
  | context
  | invalidLease
  | limitExceeded (field : String)
  | unavailable
  | notFound
  | staleOwner
  | invalidTransition (state : State)
  | leaseExpired

abbrev Metadata := List (String × String)

structure Record (φ : Type) where
  fingerprint : φ
  state : State := .acquired
  ownerToken : String := ""
  fencingToken : UInt64 := 0
  leaseExpiresAt : Int := 0
  heartbeatAt : Int := 0
  attempt : UInt64 := 0
  createdAt : Int
  updatedAt : Int := 0
  completedAt : Option Int := none
  failedAt : Option Int := none
  abandonedAt : Option Int := none
  expiredAt : Option Int := none
  result : List UInt8 := []
  metadata : Metadata := []

structure Ownership (κ : Type) where
  key : κ
  ownerToken : String
  fencingToken : UInt64

inductive Call (κ φ : Type) where
  | acquire (key : κ) (fingerprint : φ) (lease : Int)
  | heartbeat (ownership : Ownership κ) (lease : Int)
  | complete (ownership : Ownership κ) (result : List UInt8) (metadata : Metadata)
  | fail (ownership : Ownership κ) (result : List UInt8) (metadata : Metadata)
  | release (ownership : Ownership κ)
  | expire (key : κ)

/-- A call with what it meets: its context, the clock and the source of owner tokens. -/
structure Step (κ φ : Type) where
  canceled : Bool
  now : Int
  token : Option String
  call : Call κ φ

structure Store (κ φ : Type) where
  records : AList fun _ : κ => Record φ
  maxRecords : Nat

variable {κ φ : Type} [DecidableEq κ]

def Record.ownership (record : Record φ) (key : κ) : Ownership κ :=
  ⟨key, record.ownerToken, record.fencingToken⟩

abbrev Record.active (record : Record φ) : Prop :=
  record.state = .acquired ∨ record.state = .running

/-- What a settled record replays. -/
def Record.settlement (record : Record φ) : Option (Outcome × Record φ) :=
  match record.state with
  | .completed => some (.replayed, record)
  | .failed => some (.terminalFailure, record)
  | _ => none

theorem Record.active.unsettled {r : Record φ} (active : r.active) : r.settlement = none := by
  obtain active | active := active <;> simp [Record.settlement, active]

/-- An ownership granted, or settled with what the settling call stored. -/
structure Event (κ φ : Type) where
  ownership : Ownership κ
  settled : Option (Outcome × Record φ)

def Call.event (call : Call κ φ) (reply : Option Outcome × Record φ) : Option (Event κ φ) :=
  match call, reply with
  | .acquire key .., (some .acquired, record)
  | .acquire key .., (some .staleOwnerTakeover, record) => some ⟨record.ownership key, none⟩
  | .complete ownership .., (_, record) => some ⟨ownership, some (.replayed, record)⟩
  | .fail ownership .., (_, record) => some ⟨ownership, some (.terminalFailure, record)⟩
  | _, _ => none

def grants (key : κ) (events : List (Event κ φ)) : List (Ownership κ) :=
  (events.filter fun e => e.ownership.key = key ∧ e.settled.isNone).map (·.ownership)

def settlements (key : κ) (events : List (Event κ φ)) : List (Outcome × Record φ) :=
  (events.filter (·.ownership.key = key)).filterMap (·.settled)

def validateLease (lease : Int) : Except Error Unit :=
  if lease ≤ 0 then .error .invalidLease
  else if 86400000000000 < lease then .error (.limitExceeded "lease")
  else .ok ()

def validateResult (result : List UInt8) (metadata : Metadata) : Except Error Unit := do
  if 1048576 < result.length then .error (.limitExceeded "result")
  if 32 < metadata.length then .error (.limitExceeded "metadata")
  metadata.forM fun (key, value) => do
    if 128 < key.utf8ByteSize then .error (.limitExceeded "metadata_key")
    if 1024 < value.utf8ByteSize then .error (.limitExceeded "metadata_value")

namespace Store

def empty (maxRecords : Nat) : Store κ φ := ⟨∅, maxRecords⟩

def put (s : Store κ φ) (key : κ) (record : Record φ) : Store κ φ :=
  { s with records := s.records.insert key record }

/-- What a call returns, after the store that it leaves. -/
abbrev Answer (κ φ : Type) := Store κ φ × Option Outcome × Record φ

def grant (s : Store κ φ) (key : κ) (record : Record φ) (outcome : Outcome) (lease now : Int)
    (token : Option String) : Except Error (Answer κ φ) :=
  match token with
  | none => .error .unavailable
  | some token =>
    if token = "" ∨ 256 < token.utf8ByteSize then .error .unavailable
    else
      let record : Record φ :=
        { fingerprint := record.fingerprint, createdAt := record.createdAt, ownerToken := token
          fencingToken := record.fencingToken + 1, attempt := record.attempt + 1
          leaseExpiresAt := now + lease, heartbeatAt := now, updatedAt := now }
      .ok (s.put key record, some outcome, record)

variable {s s' : Store κ φ} {key : κ} {done : List (Event κ φ)} {e : Option (Event κ φ)}
  {ownership : Ownership κ} {answer : Store.Answer κ φ} {now lease : Int} {r : Record φ}
  {token : Option String}

theorem grant_ok {out : Outcome} (ok : s.grant key r out lease now token = .ok answer) :
    ∃ new : Record φ, answer = (s.put key new, some out, new) ∧
      new.fencingToken = r.fencingToken + 1 ∧ new.settlement = none := by
  unfold grant at ok
  split at ok
  · cases ok
  · split at ok
    · cases ok
    · cases ok
      exact ⟨_, rfl, rfl, rfl⟩

def current (s : Store κ φ) (ownership : Ownership κ) (now : Int) : Except Error (Record φ) :=
  match s.records.lookup ownership.key with
  | none => .error .notFound
  | some record =>
    if record.ownerToken ≠ ownership.ownerToken ∨ record.fencingToken ≠ ownership.fencingToken then
      .error .staleOwner
    else if ¬ record.active then .error (.invalidTransition record.state)
    else if record.leaseExpiresAt ≤ now then .error .leaseExpired
    else .ok record

theorem current_ok (ok : s.current ownership now = .ok r) :
    s.records.lookup ownership.key = some r ∧ r.ownership ownership.key = ownership ∧ r.active := by
  unfold current at ok
  split at ok
  · cases ok
  · split_ifs at ok with stale active late
    cases ok
    rw [not_or, not_not, not_not] at stale
    refine ⟨‹_›, ?_, active⟩
    rw [Record.ownership, stale.1, stale.2]

/-- A mutation by the current owner. -/
def change (s : Store κ φ) (ownership : Ownership κ) (now : Int) (f : Record φ → Record φ) :
    Except Error (Answer κ φ) := do
  let record ← s.current ownership now
  .ok (s.put ownership.key (f record), none, f record)

def expire (s : Store κ φ) (key : κ) (now : Int) : Except Error (Answer κ φ) :=
  match s.records.lookup key with
  | none => .error .notFound
  | some record =>
    if ¬ record.active ∨ now < record.leaseExpiresAt then .error (.invalidTransition record.state)
    else
      let record := { record with state := .expired, expiredAt := some now, updatedAt := now }
      .ok (s.put key record, none, record)

def fence (held : Option (Record φ)) : UInt64 := (held.map (·.fencingToken)).getD 0

/-- What a call can do to the store, and the event that it tells. -/
inductive Moves (s : Store κ φ) : Store κ φ → Option (Event κ φ) → Prop where
  | stay : Moves s s none
  | grant {key : κ} {record : Record φ}
    (unsettled : (s.records.lookup key).bind Record.settlement = none)
    (fence : record.fencingToken = fence (s.records.lookup key) + 1)
      (fresh : record.settlement = none) :
    Moves s (s.put key record) (some ⟨record.ownership key, none⟩)
  | change {key : κ} {old new : Record φ} (held : s.records.lookup key = some old)
    (unsettled : old.settlement = none)
    (same : new.ownership key = old.ownership key) : Moves s (s.put key new)
      (new.settlement.map fun settled => ⟨old.ownership key, some settled⟩)

theorem change_moves {f : Record φ → Record φ}
    {call : Call κ φ} (ok : s.change ownership now f = .ok answer)
    (eq : ∀ old, (f old).ownership ownership.key = old.ownership ownership.key)
    (tells : ∀ old, call.event (none, f old) =
      (f old).settlement.map fun settled => ⟨ownership, some settled⟩) :
    Moves s answer.1 (call.event answer.2) := by
  obtain ⟨old, current, ok⟩ := except_bind_ok.1 ok
  obtain ⟨held, owner, active⟩ := current_ok current
  cases ok
  rw [tells]
  nth_rewrite 2 [← owner]
  exact .change held active.unsettled (eq old)

theorem expire_moves (ok : s.expire key now = .ok answer) :
    Moves s answer.1 ((Call.expire key).event answer.2) := by
  unfold expire at ok
  split at ok
  · cases ok
  · split at ok
    · cases ok
    · next held live =>
      cases ok
      exact .change held (not_not.1 (not_or.1 live).1).unsettled rfl

theorem Moves.settled {settlement : Outcome × Record φ}
    (moves : Moves s s' e) (tells : e = some ⟨ownership, some settlement⟩) :
    ∃ r, s.records.lookup ownership.key = some r ∧ r.ownership ownership.key = ownership := by
  cases moves with
  | stay | grant => cases tells
  | change held unsettled same =>
    obtain ⟨settled, -, eq⟩ := Option.map_eq_some_iff.1 tells
    cases eq
    exact ⟨_, held, rfl⟩

/-- What was told about a key is what the store holds of it. -/
structure Told (key : κ) (held : Option (Record φ)) (events : List (Event κ φ)) : Prop where
  fence : fence held = .ofNat (grants key events).length
  last : (grants key events).getLast? = held.map (·.ownership key)
  settled : settlements key events = (held.bind Record.settlement).toList

theorem Told.move (told : Told key (s.records.lookup key) done) (moves : Moves s s' e) :
    Told key (s'.records.lookup key) (done ++ e.toList) := by
  -- A write under another key tells nothing about this one.
  have other {key' r} (ne : key ≠ key') (e : Option (Event κ φ))
      (elsewhere : ∀ a ∈ e, a.ownership.key = key') :
      Told key ((s.put key' r).records.lookup key) (done ++ e.toList) := by
    rw [put, AList.lookup_insert_ne ne]
    rcases e with _ | a
    · simpa using told
    · have elsewhere : a.ownership.key ≠ key := (elsewhere a rfl).trans_ne ne.symm
      refine ⟨?_, ?_, ?_⟩
      · simpa [grants, elsewhere] using told.fence
      · simpa [grants, elsewhere] using told.last
      · simpa [settlements, elsewhere] using told.settled
  cases moves with
  | stay => simpa using told
  | @grant key' r unsettled fence fresh =>
    by_cases same : key = key'
    · subst same
      rw [put, AList.lookup_insert]
      refine ⟨?_, ?_, ?_⟩
      · change r.fencingToken = _
        rw [fence, told.fence]
        simp [grants, Record.ownership]
      · simp [grants, Record.ownership]
      · have settled := told.settled
        rw [unsettled] at settled
        simpa [settlements, fresh] using settled
    · exact other same _ (by simp [Record.ownership])
  | @change key' old new held unsettled same =>
    by_cases eq : key = key'
    · subst eq
      rw [held] at told
      rw [put, AList.lookup_insert]
      have settled := told.settled
      have last := told.last
      have fence : new.fencingToken = _ := (congrArg Ownership.fencingToken same).trans told.fence
      rw [Option.bind_some, unsettled] at settled
      rw [Option.map_some, ← same] at last
      rcases told : new.settlement with _ | settlement
      · simpa using ⟨fence, last, by simpa [told] using settled⟩
      · refine ⟨?_, ?_, ?_⟩
        · simpa [grants, Store.fence] using fence
        · simpa [grants] using last
        · simpa [settlements, told, Record.ownership] using settled
    · refine other eq _ fun a tells => ?_
      obtain ⟨settled, -, rfl⟩ := Option.map_eq_some_iff.1 tells
      rfl

variable [DecidableEq φ]

def acquire (s : Store κ φ) (key : κ) (fingerprint : φ) (lease now : Int) (token : Option String) :
    Except Error (Answer κ φ) :=
  match s.records.lookup key with
  | some record =>
    if record.fingerprint ≠ fingerprint then .ok (s, some .conflict, record)
    else match record.state with
      | .completed => .ok (s, some .replayed, record)
      | .failed => .ok (s, some .terminalFailure, record)
      | .acquired | .running =>
        if now < record.leaseExpiresAt then .ok (s, some .inProgress, record)
        else s.grant key record .staleOwnerTakeover lease now token
      | .abandoned | .expired => s.grant key record .acquired lease now token
  | none =>
    if s.maxRecords ≤ s.records.entries.length then .error (.limitExceeded "records")
    else s.grant key { fingerprint, createdAt := now } .acquired lease now token

theorem acquire_moves {fingerprint : φ}
    (ok : s.acquire key fingerprint lease now token = .ok answer) :
    Moves s answer.1 ((Call.acquire key fingerprint lease).event answer.2) := by
  unfold acquire at ok
  rcases held : s.records.lookup key with _ | r
  · simp only [held] at ok
    split at ok
    · cases ok
    · obtain ⟨new, rfl, fence, fresh⟩ := grant_ok ok
      exact .grant (by rw [held]; rfl) (by rw [fence, held]; rfl) fresh
  · simp only [held] at ok
    split at ok
    · cases ok
      exact .stay
    · split at ok
      all_goals try split at ok
      all_goals first
      | cases ok
        exact .stay
      | obtain ⟨new, rfl, fence, fresh⟩ := grant_ok ok
        refine .grant ?_ (by rw [fence, held]; rfl) fresh
        simp [Record.settlement, *]

def step (s : Store κ φ) (step : Step κ φ) : Except Error (Answer κ φ) :=
  let now := step.now
  if step.canceled then .error .context
  else match step.call with
    | .acquire key fingerprint lease => do
      validateLease lease
      s.acquire key fingerprint lease now step.token
    | .heartbeat ownership lease => do
      validateLease lease
      s.change ownership now fun record =>
        { record with
          state := .running, heartbeatAt := now, leaseExpiresAt := now + lease, updatedAt := now }
    | .complete ownership result metadata => do
      validateResult result metadata
      s.change ownership now fun record =>
        { record with
          state := .completed, result, metadata, completedAt := some now, updatedAt := now }
    | .fail ownership result metadata => do
      validateResult result metadata
      s.change ownership now fun record =>
        { record with state := .failed, result, metadata, failedAt := some now, updatedAt := now }
    | .release ownership => s.change ownership now fun record =>
        { record with state := .abandoned, abandonedAt := some now, updatedAt := now }
    | .expire key => s.expire key now

/-- A failed call leaves the store as it was. -/
def next (s : Store κ φ) (a : Step κ φ) : Store κ φ :=
  match s.step a with
  | .ok (s', _) => s'
  | .error _ => s

def event (s : Store κ φ) (a : Step κ φ) : Option (Event κ φ) :=
  match s.step a with
  | .ok (_, reply) => a.call.event reply
  | .error _ => none

def events (s : Store κ φ) : List (Step κ φ) → List (Event κ φ)
  | [] => []
  | a :: steps => (s.event a).toList ++ (s.next a).events steps

theorem step_moves {a : Step κ φ} : Moves s (s.next a) (s.event a) := by
  rcases told : s.step a with e | ⟨s', reply⟩
  · rw [next, event, told]
    exact .stay
  · rw [next, event, told]
    unfold step at told
    split at told
    · cases told
    split at told <;> rename_i called <;> rw [called]
    · obtain ⟨-, -, told⟩ := except_bind_ok.1 told
      exact acquire_moves told
    · obtain ⟨-, -, told⟩ := except_bind_ok.1 told
      exact change_moves told (fun _ => rfl) fun _ => rfl
    · obtain ⟨-, -, told⟩ := except_bind_ok.1 told
      exact change_moves told (fun _ => rfl) fun _ => rfl
    · obtain ⟨-, -, told⟩ := except_bind_ok.1 told
      exact change_moves told (fun _ => rfl) fun _ => rfl
    · exact change_moves told (fun _ => rfl) fun _ => rfl
    · exact expire_moves told

theorem events_told (told : Told key (s.records.lookup key) done) (steps : List (Step κ φ)) :
    Told key ((steps.foldl next s).records.lookup key) (done ++ s.events steps) := by
  induction steps generalizing s done with
  | nil => simpa [Store.events] using told
  | cons a steps ih =>
    rw [Store.events, ← append_assoc]
    exact ih (told.move step_moves)

/-- Over every run, a key settles at most once, for its last owner, and stays settled. -/
theorem settles_once (maxRecords : Nat) (steps : List (Step κ φ)) (key : κ) :
    let s := steps.foldl next (empty maxRecords)
    let events := (empty maxRecords).events steps
    (settlements key events).length ≤ 1 ∧
    fence (s.records.lookup key) = .ofNat (grants key events).length ∧
    (∀ a ownership settled, ownership.key = key → s.event a = some ⟨ownership, some settled⟩ →
      (grants key events).getLast? = some ownership) ∧
    ∀ outcome record, (outcome, record) ∈ settlements key events →
      ∀ a fingerprint lease, a.canceled = false → validateLease lease = .ok () →
        a.call = .acquire key fingerprint lease → s.step a =
          .ok (s, some (if record.fingerprint = fingerprint then outcome else .conflict),
            record) := by
  intro s events
  have told : Told key (s.records.lookup key) events :=
    events_told (s := empty maxRecords) (show Told key _ [] from ⟨rfl, rfl, rfl⟩) steps
  refine ⟨?_, told.fence, ?_, ?_⟩
  · rw [told.settled]
    exact Option.length_toList_le
  · rintro a ownership settled rfl told'
    obtain ⟨record, held, owner⟩ := step_moves.settled told'
    rw [told.last, held, ← owner]
    rfl
  · intro outcome record settled a fingerprint lease live valid called
    rw [told.settled, Option.mem_toList, Option.bind_eq_some_iff] at settled
    obtain ⟨old, held, settled⟩ := settled
    rw [step, called, live, if_neg Bool.false_ne_true]
    simp only [valid]
    change s.acquire _ _ _ _ _ = _
    unfold Record.settlement at settled
    rw [acquire, held]
    -- The settled state decides the outcome, behind the fingerprint check.
    split at settled
    all_goals cases settled
    all_goals split_ifs <;> simp_all

/-- The ownership under which a call asks for a change. -/
def owner : Call κ φ → Option (Ownership κ)
  | .heartbeat ownership _ | .complete ownership _ _ | .fail ownership _ _ | .release ownership =>
    some ownership
  | .acquire .. | .expire _ => none

theorem step_current {a : Step κ φ} (owned : owner a.call = some ownership)
    (ok : s.step a = .ok answer) : ∃ r, s.current ownership a.now = .ok r := by
  unfold step at ok
  split at ok
  · cases ok
  split at ok <;> rename_i called <;> rw [called] at owned <;> cases owned
  -- All but a release check their input first.
  iterate 3
    obtain ⟨-, -, ok⟩ := except_bind_ok.1 ok
    exact (except_bind_ok.1 ok).imp fun _ => And.left
  · exact (except_bind_ok.1 ok).imp fun _ => And.left

/-- Over every run, a call under an ownership succeeds only for the last one that was granted of its
key, and only while the key is unsettled. -/
theorem owners_fenced (maxRecords : Nat) (steps : List (Step κ φ)) (a : Step κ φ)
    (owned : owner a.call = some ownership)
    (ok : (steps.foldl next (empty maxRecords)).step a = .ok answer) :
    (grants ownership.key ((empty maxRecords).events steps)).getLast? = some ownership ∧
      settlements ownership.key ((empty maxRecords).events steps) = [] := by
  have told := events_told (s := empty maxRecords)
    (show Told ownership.key _ [] from ⟨rfl, rfl, rfl⟩) steps
  obtain ⟨r, current⟩ := step_current owned ok
  obtain ⟨held, same, active⟩ := current_ok current
  have last := told.last
  have settled := told.settled
  rw [held, Option.map_some, same] at last
  rw [held, Option.bind_some, active.unsettled] at settled
  exact ⟨last, settled⟩

/-- A second worker takes the key over when the first one's lease has expired. -/
def takeover : List (Step Nat Nat) :=
  [⟨false, 0, some "a", .acquire 1 7 1000000000⟩,
   ⟨false, 2000000000, some "b", .acquire 1 7 1000000000⟩]

/-- The second worker may release the key; the first may not. -/
theorem owners_fenced_takeover :
    grants 1 ((empty 1).events takeover) = [⟨1, "a", 1⟩, ⟨1, "b", 2⟩] ∧
      settlements 1 ((empty 1).events takeover) = [] ∧
      ∀ ownership : Ownership Nat, ownership = ⟨1, "a", 1⟩ ∨ ownership = ⟨1, "b", 2⟩ →
        ((∃ answer, (takeover.foldl next (empty 1)).step
          ⟨false, 2000000005, none, .release ownership⟩ = .ok answer) ↔
        ownership = ⟨1, "b", 2⟩) := by
  have granted : grants 1 ((empty 1).events takeover) = [⟨1, "a", 1⟩, ⟨1, "b", 2⟩] := rfl
  obtain ⟨answer, released⟩ : ∃ answer, (takeover.foldl next (empty 1)).step
      ⟨false, 2000000005, none, .release ⟨1, "b", 2⟩⟩ = .ok answer := ⟨_, rfl⟩
  refine ⟨granted, (owners_fenced 1 takeover _ rfl released).2, ?_⟩
  rintro ownership (rfl | rfl)
  · refine ⟨fun ⟨answer, ok⟩ => ?_, by simp⟩
    have last := (owners_fenced 1 takeover _ rfl ok).1
    rw [granted] at last
    exact (Option.some.inj last).symm
  · exact ⟨fun _ => rfl, fun _ => ⟨answer, released⟩⟩

end Store

end Golib.Idempotency
