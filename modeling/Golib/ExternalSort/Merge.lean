import Golib.ExternalSort.Store
import Golib.Lib.Programs

/-! The merge yields what its readers tell in ascending order, up to where one of them fails. -/
namespace Golib.ExternalSort

open Golib.Merging List

variable {rs : List Bytes}

/-- A reader gives these records and no others, but it may fail at any of them. -/
def Tells (next : ChunkReader → Read) : List Bytes → ChunkReader → Prop
  | [], reader => ∀ plaintext reader', next reader ≠ .record plaintext reader'
  | record :: rest, reader => next reader ≠ .eof ∧
      ∀ plaintext reader', next reader = .record plaintext reader' →
        plaintext = record ∧ Tells next rest reader'

/-- What was yielded are the first of these records, and all of them if nothing failed. -/
def Yields (records : List Bytes) (outcome : List Bytes × Option Error) : Prop :=
  outcome.1 <+: records ∧ (outcome.2 = none → outcome.1 = records)

theorem yields_failed (error : Error) : Yields rs ([], some error) := ⟨ nil_prefix, nofun⟩

theorem Yields.cons {out : List Bytes × Option Error}
    (yields : Yields rs out) (r : Bytes) : Yields (r :: rs) (r :: out.1, out.2) :=
  ⟨(prefix_cons_inj _).mpr yields.1, fun done => congrArg _ (yields.2 done)⟩

section Readers

variable {next : ChunkReader → Read} {rests : List (List Bytes)} {queue : Queue Bytes}
  {readers : List ChunkReader} {rest : List Bytes} {reader : ChunkReader}

theorem tells_of_eof (tells : Tells next rest reader) (eof : next reader = .eof) : rest = [] := by
  cases rest with
  | nil => rfl
  | cons r rest => exact absurd eof tells.1

theorem tells_of_record {plaintext : Bytes} {reader' : ChunkReader}
    (tells : Tells next rest reader) (read : next reader = .record plaintext reader') :
    ∃ rest', rest = plaintext :: rest' ∧ Tells next rest' reader' := by
  cases rest with
  | nil => exact absurd read (tells plaintext reader')
  | cons r rest =>
    obtain ⟨rfl, tells'⟩ := tells.2 plaintext reader' read
    exact ⟨rest, rfl, tells'⟩

theorem told_getElem? (told : Forall₂ (Tells next) rests readers) {i : Nat}
    (found : readers[i]? = some reader) :
    ∃ rest, rests[i]? = some rest ∧ Tells next rest reader := by
  induction told generalizing i with
  | nil => simp at found
  | cons tells _ ih =>
    cases i with
    | zero =>
      rw [getElem?_cons_zero, Option.some.injEq] at found
      exact ⟨_, getElem?_cons_zero, found ▸ tells⟩
    | succ i => exact ih found

theorem told_set (told : Forall₂ (Tells next) rests readers) (i : Nat)
    (tells : Tells next rest reader) :
    Forall₂ (Tells next) (rests.set i rest) (readers.set i reader) := by
  induction told generalizing i with
  | nil => exact .nil
  | cons first others ih =>
    cases i with
    | zero => exact .cons tells others
    | succ i => exact .cons first (ih i)

/-- Records of the readers were moved to the queue. -/
def Filled (next : ChunkReader → Read) (asked rests : List (List Bytes)) (queue : Queue Bytes)
    (filled : Queue Bytes × List ChunkReader) : Prop :=
  ∃ rests', Forall₂ (Tells next) rests' filled.2 ∧ rests'.length = rests.length ∧
    Ready (asked.length + rests.length) filled.1 (asked ++ rests') ∧
    (outstanding filled.1 (asked ++ rests')).Perm (outstanding queue (asked ++ rests))

theorem fillQueue_ready
    {q : Merging.Queue Bytes} {asked : List (List Bytes)}
    {filled : Merging.Queue Bytes × List ChunkReader}
    (told : Forall₂ (Tells next) rests readers)
    (ready : Ready asked.length q (asked ++ rests))
    (ok : fillQueue next asked.length readers q = .ok filled) :
    Filled next asked rests q filled := by
  induction told generalizing asked q filled with
  | nil =>
    rw [fillQueue, Except.ok.injEq] at ok
    subst ok
    exact ⟨[], .nil, rfl, ready, .refl _⟩
  | @cons rest reader rests readers tells others ih =>
    have place : (asked ++ rest :: rests)[asked.length]? = some rest := by simp
    -- the reader is asked, and the others follow
    have others_follow : ∀ {rest' : List Bytes} {reader' : ChunkReader} {queue' : Queue Bytes},
        Tells next rest' reader' → Ready (asked.length + 1) queue' (asked ++ rest' :: rests) →
        (outstanding queue' (asked ++ rest' :: rests)).Perm
          (outstanding q (asked ++ rest :: rests)) →
        (fillQueue next (asked.length + 1) readers queue').map
          (fun filled => (filled.1, reader' :: filled.2)) = .ok filled →
        Filled next asked (rest :: rests) q filled := by
      intro rest' reader' queue' tells' ready' perm mapped
      rw [append_cons] at ready' perm
      have length : (asked ++ [rest']).length = asked.length + 1 := by simp
      rw [← length] at ready' mapped
      obtain ⟨rest'', filled', rfl⟩ := except_map_ok.mp mapped
      obtain ⟨rests', told', eq, ready'', perm'⟩ := ih ready' filled'
      rw [length, append_assoc, singleton_append] at ready''
      rw [append_assoc, singleton_append] at perm'
      refine ⟨rest' :: rests', .cons tells' told', congrArg (· + 1) eq, ?_, perm'.trans perm⟩
      rwa [length_cons, Nat.add_comm rests.length, ← Nat.add_assoc]
    rw [fillQueue] at ok
    cases read : next reader with
    | failed error =>
      rw [read] at ok
      cases ok
    | eof =>
      rw [read] at ok
      have empty := tells_of_eof tells read
      exact others_follow tells (ready.asked_empty (empty ▸ place)) (.refl _) ok
    | record plaintext reader' =>
      rw [read] at ok
      obtain ⟨rest', rfl, tells'⟩ := tells_of_record tells read
      have moved : (asked ++ (plaintext :: rest') :: rests).set asked.length rest' =
          asked ++ rest' :: rests := by simp
      have ready' := ready.asked_more place
      have perm : (outstanding (push plaintext asked.length q) _).Perm _ := outstanding_push place
      rw [moved] at ready' perm
      exact others_follow tells' ready' perm ok

theorem drain_yields {rounds : Nat} {faults : MergeFaults}
    (yielded : Nat) (told : Forall₂ (Tells next) rests readers)
    (ready : Ready rests.length queue rests) (enough : (outstanding queue rests).length ≤ rounds) :
    Yields (ascending (outstanding queue rests))
    (drain faults next rounds yielded queue readers) := by
  induction rounds generalizing yielded queue rests readers with
  | zero =>
    have none : outstanding queue rests = [] := length_eq_zero_iff.mp (Nat.le_zero.mp enough)
    rw [none, drain]
    exact ⟨ nil_prefix, fun _ => rfl⟩
  | succ rounds ih =>
    cases queue with
    | nil =>
      have none : outstanding [] rests = [] := by
        rw [eq_nil_iff_forall_not_mem]
        intro r mem
        obtain ⟨rest, found, sub⟩ := mem_flatten.mp mem
        obtain ⟨index, bound, rfl⟩ := getElem_of_mem found
        obtain ⟨_, queued, _⟩ := ready.waiting index _ bound (getElem?_eq_getElem bound) r sub
        exact not_mem_nil queued
      rw [none, drain]
      exact ⟨ nil_prefix, fun _ => rfl⟩
    | cons cur queue =>
      obtain ⟨⟨r, index⟩, rfl⟩ := toLex.surjective cur
      have fewer : (outstanding queue rests).length ≤ rounds := Nat.le_of_succ_le_succ enough
      rw [ready.ascending_eq, drain]
      simp only [ofLex_toLex]
      split
      · exact yields_failed _
      split
      · exact (yields_failed _).cons r
      split
      · rename_i plaintext reader' read
        obtain ⟨reader, found, step⟩ := Option.map_eq_some_iff.mp read
        obtain ⟨rest, place, tells⟩ := told_getElem? told found
        obtain ⟨rest', rfl, tells'⟩ := tells_of_record tells step
        have perm : (outstanding (push plaintext index queue) _).Perm _ := outstanding_push place
        have ready' := ready.replaced place
        rw [← length_set (a := rest') (i := index)] at ready'
        have rest := ih (yielded + 1) (told_set told index tells') ready'
          (perm.length_eq.trans_le fewer)
        rw [ascending_eq_of_perm perm] at rest
        exact rest.cons r
      · exact (yields_failed _).cons r
      · rename_i noRecord noFailure
        have empty : ∀ rest, rests[index]? = some rest → rest = [] := by
          intro rest place
          obtain ⟨bound, -⟩ := List.getElem?_eq_some_iff.mp place
          have found := List.getElem?_eq_getElem (told.length_eq ▸ bound)
          obtain ⟨rest', place', tells⟩ := told_getElem? told found
          rw [place, Option.some.injEq] at place'
          subst place'
          rw [found, Option.map_some] at noRecord noFailure
          refine tells_of_eof tells ?_
          cases read : next _ with
          | record plaintext reader => exact (noRecord _ _ (congrArg some read)).elim
          | failed error => exact (noFailure _ (congrArg some read)).elim
          | eof => rfl
        exact (ih (yielded + 1) told (ready.finished empty) fewer).cons r

theorem merge_yields (faults : MergeFaults) (told : Forall₂ (Tells next) rests readers)
    (sorted : ∀ rest ∈ rests, rest.Pairwise (· ≤ ·))
    (counted : rests.flatten.length ≤ (readers.map (·.expectedRecords)).sum) :
    Yields (ascending rests.flatten) (merge faults next readers) := by
  unfold merge
  cases filled : fillQueue next 0 readers [] with
  | error error => exact yields_failed error
  | ok started =>
    have none : Ready ([] : List (List Bytes)).length [] ([] ++ rests) :=
      ⟨.nil, sorted, fun _ _ sub => absurd sub (Nat.not_lt_zero _)⟩
    obtain ⟨rests', told', eq, ready, perm⟩ := fillQueue_ready told none filled
    rw [length_nil, Nat.zero_add, ← eq, nil_append] at ready
    have all : (outstanding started.1 rests').Perm rests.flatten := perm
    rw [← ascending_eq_of_perm all]
    exact drain_yields 0 told' ready (all.length_eq.trans_le counted)

end Readers

end Golib.ExternalSort
