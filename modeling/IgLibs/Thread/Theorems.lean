import IgLibs.Thread
import IgLibs.Ledger
import IgLibs.Machine

namespace IgLibs.Thread

open Ledger

-- Only a thread that is pending may be joined or detached.
def Admits (before : List ThreadCall) : ThreadCall → Prop
  | .created _ => True
  | .join tid => pending tid before = true
  | .detach tid => pending tid before = true

-- Every join and every detach has been on a pending thread, and no pending thread is forgotten.
structure Lawful (t : Thread) : Prop where
  issued : Admitted Admits t.calls
  kept : ∀ tid, pending tid t.calls = true → t.m_tid = tid

def Phase.owned : Phase → Option ThreadId
  | .idle => none
  | .running tid => some tid
  | .detached => none
  | .restarted tid => some tid

def Phase.joinable : Phase → Bool
  | .idle => true
  | .running _ => true
  | .detached => false
  | .restarted _ => false

-- The object is where its owner takes it to be.
structure Follows (phase : Phase) (t : Thread) : Prop where
  issued : Admitted Admits t.calls
  joinable : t.m_joinable = phase.joinable
  pending_iff : ∀ tid, pending tid t.calls = true ↔ phase.owned = some tid
  owned : ∀ tid, phase.owned = some tid → t.m_tid = tid

section

variable {phase phase' : Phase} {t next : Thread} {tid other : ThreadId} {call : ThreadCall}

theorem pending_record (tid : ThreadId) (t : Thread) (call : ThreadCall) :
    pending tid (t.record call).calls = entered tid (pending tid t.calls) call := by
  rw [record, pending, List.foldl_append]
  rfl

theorem Follows.lawful (h : Follows phase t) : t.Lawful :=
  ⟨h.issued, fun tid hpending => h.owned tid ((h.pending_iff tid).mp hpending)⟩

theorem follows_new : Follows .idle new :=
  ⟨admitted_nil, rfl, fun _ => iff_of_false Bool.false_ne_true (fun h => by cases h),
    fun _ h => by cases h⟩

-- A thread is started while none is pending.
theorem Follows.start (h : Follows phase t) (hfree : phase.owned = none) (tid : ThreadId)
    (howned : phase'.owned = some tid) (hjoinable : phase'.joinable = phase.joinable) :
    Follows phase' { t.record (.created tid) with m_tid := tid } := by
  refine ⟨admitted_concat.mpr ⟨h.issued, trivial⟩, h.joinable.trans hjoinable.symm, ?_, ?_⟩
  · intro other
    change pending other (t.record (.created tid)).calls = true ↔ _
    rw [pending_record, howned, entered, Option.some.injEq]
    by_cases hother : tid = other
    · simp [hother]
    · rw [if_neg hother, h.pending_iff, hfree]
      simp [hother]
  · intro other hother
    exact Option.some.inj (howned.symm.trans hother)

-- Whatever a failing pthread_create leaves in m_tid, it is not missed while none is pending.
theorem Follows.miss (h : Follows phase t)
    (hkept : ∀ other, phase.owned = some other → tid = other) :
    Follows phase { t with m_tid := tid } :=
  ⟨h.issued, h.joinable, h.pending_iff, hkept⟩

-- The pending thread is joined or detached.
theorem Follows.finish (h : Follows phase t) (howned : phase.owned = some tid)
    (hcall : call = .join t.m_tid ∨ call = .detach t.m_tid) (hnext : next.calls = t.calls ++ [call])
    (hjoinable : next.m_joinable = phase'.joinable) (hfree : phase'.owned = none) :
    Follows phase' next := by
  have htid := h.owned tid howned
  have hpending : pending t.m_tid t.calls = true := (h.pending_iff _).mpr (by rw [howned, htid])
  refine ⟨?_, hjoinable, fun other => ?_, fun other hother => ?_⟩
  · rw [hnext, admitted_concat]
    refine ⟨h.issued, ?_⟩
    rcases hcall with rfl | rfl
    · exact hpending
    · exact hpending
  · have hnone : pending other (t.calls ++ [call]) = false := by
      have hrecord := pending_record other t call
      rw [record] at hrecord
      by_cases hother : t.m_tid = other
      · rw [hrecord]
        rcases hcall with rfl | rfl
        · exact if_pos hother
        · exact if_pos hother
      · have hkept : pending other t.calls = false := by
          rw [← Bool.not_eq_true, h.pending_iff, howned, ← htid, Option.some.injEq]
          exact hother
        rw [hrecord, hkept]
        rcases hcall with rfl | rfl
        · exact if_neg hother
        · exact if_neg hother
    rw [hnext, hnone, hfree]
    exact iff_of_false Bool.false_ne_true fun h => by cases h
  · rw [hfree] at hother
    cases hother

-- There is no pending thread to join or to detach.
theorem Follows.not_lawful_of_free (h : Follows phase t) (hfree : phase.owned = none)
    (hcall : call = .join t.m_tid ∨ call = .detach t.m_tid) (hnext : next.calls = t.calls ++ [call]) :
    ¬next.Lawful := by
  intro hlawful
  have hissued := hlawful.issued
  rw [hnext, admitted_concat] at hissued
  have hpending : pending t.m_tid t.calls = true := by
    rcases hcall with rfl | rfl
    · exact hissued.2
    · exact hissued.2
  rw [h.pending_iff, hfree] at hpending
  cases hpending

-- Another id takes the place of that of the pending thread.
theorem Follows.not_lawful_of_owned (h : Follows phase t) (howned : phase.owned = some tid)
    (hpending : pending tid next.calls = pending tid t.calls) (hne : next.m_tid ≠ tid) :
    ¬next.Lawful := by
  intro hlawful
  apply hne
  apply hlawful.kept
  rw [hpending, h.pending_iff]
  exact howned

variable {thread_pre_run ret : Int} {create : CreateAnswer}

-- What each call does to the object.
theorem step_run_cases (hstep : t.step (.run thread_pre_run create) = some next) :
    thread_pre_run < 0 ∧ next = t ∨
      ¬thread_pre_run < 0 ∧ create.ret ≠ 0 ∧ next = { t with m_tid := create.tid } ∨
      ¬thread_pre_run < 0 ∧ create.ret = 0 ∧ pending create.tid t.calls = false ∧
        next = { t.record (.created create.tid) with m_tid := create.tid } := by
  rw [step] at hstep
  split at hstep
  · cases hstep
  · rename_i hoffered
    obtain rfl := Option.some.inj hstep
    unfold run
    by_cases hpre : thread_pre_run < 0
    · exact .inl ⟨hpre, by rw [if_pos hpre]⟩
    · by_cases hret : create.ret = 0
      · refine .inr (.inr ⟨hpre, hret, ?_, by simp [hpre, hret]⟩)
        rw [← Bool.not_eq_true]
        exact fun hpending => hoffered ⟨by omega, hret, hpending⟩
      · exact .inr (.inl ⟨hpre, hret, by simp [hpre, hret]⟩)

theorem step_join_cases (hstep : t.step (.join ret) = some next) :
    t.m_joinable = false ∧ next = t ∨
      t.m_joinable = true ∧ next.calls = t.calls ++ [.join t.m_tid] ∧
        (pending t.m_tid t.calls = true → next.m_joinable = true) := by
  rw [step] at hstep
  split at hstep
  · cases hstep
  · obtain rfl := Option.some.inj hstep
    unfold join
    cases hjoinable : t.m_joinable with
    | false => exact .inl ⟨rfl, rfl⟩
    | true => exact .inr ⟨rfl, rfl, fun _ => hjoinable⟩

theorem step_detach_cases (hstep : t.step (.detach ret) = some next) :
    t.m_joinable = false ∧ next = t ∨
      t.m_joinable = true ∧ next.calls = t.calls ++ [.detach t.m_tid] ∧
        (pending t.m_tid t.calls = true → next.m_joinable = false) := by
  rw [step] at hstep
  split at hstep
  · cases hstep
  · rename_i hoffered
    obtain rfl := Option.some.inj hstep
    unfold detach
    cases hjoinable : t.m_joinable with
    | false => exact .inl ⟨rfl, rfl⟩
    | true =>
        refine .inr ⟨rfl, ?_, fun hpending => ?_⟩
        · by_cases hret : ret = 0
          · simp [hret, record]
          · simp [hret, record]
        · have hret : ret = 0 := by
            by_contra hret
            exact hoffered ⟨hjoinable, hpending, hret⟩
          simp [hret]

-- The owner goes on, or the object has broken the law.
def Steps (phase : Phase) (op : Op) (next : Thread) : Prop :=
  (∃ phase', phase.step op = some phase' ∧ Follows phase' next ∧ next.Lawful) ∨
    phase.step op = none ∧ ¬next.Lawful

theorem Follows.steps (h : Follows phase next) {from_phase : Phase} {op : Op}
    (hphase : from_phase.step op = some phase) : Steps from_phase op next :=
  .inl ⟨phase, hphase, h, h.lawful⟩

-- A start that leaves the object as it was is allowed in every phase.
theorem Phase.step_run_refused (phase : Phase) (hpre : thread_pre_run < 0) :
    phase.step (.run thread_pre_run create) = some phase := by
  cases phase with
  | idle | running | detached | restarted => simp [Phase.step, hpre]

-- So is one whose pthread_create fails, unless it overwrites the id of a pending thread.
theorem Phase.step_run_failed (phase : Phase) (hpre : ¬thread_pre_run < 0)
    (hret : create.ret ≠ 0) :
    phase.step (.run thread_pre_run create) =
      if ∀ tid, phase.owned = some tid → create.tid = tid then some phase else none := by
  cases phase with
  | idle | running | detached | restarted => simp [Phase.step, Phase.owned, hpre, hret]

-- One that succeeds is allowed while no thread is pending.
theorem Phase.step_run_started (phase : Phase) (hpre : ¬thread_pre_run < 0)
    (hret : create.ret = 0) :
    (phase.owned = none ∧ ∃ phase', phase.step (.run thread_pre_run create) = some phase' ∧
        phase'.owned = some create.tid ∧ phase'.joinable = phase.joinable) ∨
      (∃ tid, phase.owned = some tid) ∧ phase.step (.run thread_pre_run create) = none := by
  cases phase with
  | idle => exact .inl ⟨rfl, .running create.tid, by simp [Phase.step, hpre, hret], rfl, rfl⟩
  | running tid => exact .inr ⟨⟨tid, rfl⟩, by simp [Phase.step, hpre, hret]⟩
  | detached => exact .inl ⟨rfl, .restarted create.tid, by simp [Phase.step, hpre, hret], rfl, rfl⟩
  | restarted tid => exact .inr ⟨⟨tid, rfl⟩, by simp [Phase.step, hpre, hret]⟩

theorem Follows.run (h : Follows phase t)
    (hstep : t.step (.run thread_pre_run create) = some next) :
    Steps phase (.run thread_pre_run create) next := by
  rcases step_run_cases hstep with
    ⟨hpre, rfl⟩ | ⟨hpre, hret, rfl⟩ | ⟨hpre, hret, hfresh, rfl⟩
  · exact h.steps (phase.step_run_refused hpre)
  · by_cases hkept : ∀ tid, phase.owned = some tid → create.tid = tid
    · exact (h.miss hkept).steps ((phase.step_run_failed hpre hret).trans (if_pos hkept))
    · refine .inr ⟨(phase.step_run_failed hpre hret).trans (if_neg hkept), ?_⟩
      push Not at hkept
      obtain ⟨tid, howned, hne⟩ := hkept
      exact h.not_lawful_of_owned howned rfl hne
  · rcases phase.step_run_started hpre hret with
      ⟨hfree, phase', hphase, howned, hjoinable⟩ | ⟨⟨tid, howned⟩, hphase⟩
    · exact (h.start hfree create.tid howned hjoinable).steps hphase
    · have hne : create.tid ≠ tid := by
        rintro rfl
        rw [(h.pending_iff _).mpr howned] at hfresh
        cases hfresh
      refine .inr ⟨hphase, h.not_lawful_of_owned howned ?_ hne⟩
      exact (pending_record tid t (.created create.tid)).trans (if_neg hne)

-- join and detach do nothing behind a detach, and before it they end a pending thread.
theorem Phase.step_join (phase : Phase) :
    phase.joinable = false ∧ phase.step (.join ret) = some phase ∨
      phase.joinable = true ∧ (phase.owned = none ∧ phase.step (.join ret) = none ∨
        ∃ tid, phase.owned = some tid ∧ phase.step (.join ret) = some .idle) := by
  cases phase with
  | idle => exact .inr ⟨rfl, .inl ⟨rfl, rfl⟩⟩
  | running tid => exact .inr ⟨rfl, .inr ⟨tid, rfl, rfl⟩⟩
  | detached | restarted => exact .inl ⟨rfl, rfl⟩

theorem Phase.step_detach (phase : Phase) :
    phase.joinable = false ∧ phase.step (.detach ret) = some phase ∨
      phase.joinable = true ∧ (phase.owned = none ∧ phase.step (.detach ret) = none ∨
        ∃ tid, phase.owned = some tid ∧ phase.step (.detach ret) = some .detached) := by
  cases phase with
  | idle => exact .inr ⟨rfl, .inl ⟨rfl, rfl⟩⟩
  | running tid => exact .inr ⟨rfl, .inr ⟨tid, rfl, rfl⟩⟩
  | detached | restarted => exact .inl ⟨rfl, rfl⟩

-- So they do nothing, or there is no thread to end, or they end it.
theorem Follows.ends (h : Follows phase t) {op : Op} {last : Phase} (hlast : last.owned = none)
    (hcall : call = .join t.m_tid ∨ call = .detach t.m_tid)
    (hphase : phase.joinable = false ∧ phase.step op = some phase ∨
      phase.joinable = true ∧ (phase.owned = none ∧ phase.step op = none ∨
        ∃ tid, phase.owned = some tid ∧ phase.step op = some last))
    (hnext : t.m_joinable = false ∧ next = t ∨
      t.m_joinable = true ∧ next.calls = t.calls ++ [call] ∧
        (pending t.m_tid t.calls = true → next.m_joinable = last.joinable)) :
    Steps phase op next := by
  have hjoinable := h.joinable
  rcases hphase with ⟨hfalse, hphase⟩ | ⟨htrue, ⟨hfree, hphase⟩ | ⟨tid, howned, hphase⟩⟩
  · rcases hnext with ⟨-, rfl⟩ | ⟨hno, -⟩
    · exact h.steps hphase
    · rw [hjoinable, hfalse] at hno
      cases hno
  · rcases hnext with ⟨hno, -⟩ | ⟨-, hcalls, -⟩
    · rw [hjoinable, htrue] at hno
      cases hno
    · exact .inr ⟨hphase, h.not_lawful_of_free hfree hcall hcalls⟩
  · rcases hnext with ⟨hno, -⟩ | ⟨-, hcalls, hflag⟩
    · rw [hjoinable, htrue] at hno
      cases hno
    · have hpending : pending t.m_tid t.calls = true :=
        (h.pending_iff _).mpr (by rw [howned, h.owned tid howned])
      have hend : Follows last next := h.finish howned hcall hcalls (hflag hpending) hlast
      exact hend.steps hphase

theorem Follows.join (h : Follows phase t) (hstep : t.step (.join ret) = some next) :
    Steps phase (.join ret) next :=
  h.ends rfl (.inl rfl) phase.step_join (step_join_cases hstep)

theorem Follows.detach (h : Follows phase t) (hstep : t.step (.detach ret) = some next) :
    Steps phase (.detach ret) next :=
  h.ends rfl (.inr rfl) phase.step_detach (step_detach_cases hstep)

theorem Follows.step (h : Follows phase t) {op : Op} (hstep : t.step op = some next) :
    Steps phase op next := by
  cases op with
  | run thread_pre_run create => exact h.run hstep
  | join ret => exact h.join hstep
  | detach ret => exact h.detach hstep

end

-- In every run from a new object all the states are lawful exactly if the calls are those of an
-- owner who keeps to the phases.
theorem lawful_iff_phases {ops : List Op} {final : Thread}
    (hrun : Machine.exec step new ops = some final) :
    (∀ first middle, first <+: ops → Machine.exec step new first = some middle → middle.Lawful) ↔
      ∃ last, Machine.exec Phase.step .idle ops = some last := by
  have hsteps : ∀ phase (t : Thread) op next, Follows phase t → t.step op = some next →
      Steps phase op next := fun _ _ _ _ h hstep => h.step hstep
  exact (Machine.accepts_iff_forall_prefix Follows Lawful hsteps follows_new follows_new.lawful
    hrun).symm

-- Two threads, the first one joined and the second one detached, and a third one after that.
theorem lawful_iff_phases_three :
    let ops : List Op := [.run 0 ⟨0, 7⟩, .join 0, .run 0 ⟨11, 0⟩, .run 0 ⟨0, 7⟩, .detach 0,
      .run (-1) ⟨0, 8⟩, .run 0 ⟨0, 8⟩, .join 0]
    ∃ final, Machine.exec step new ops = some final ∧ final.m_tid = 8 ∧ final.Lawful := by
  intro ops
  obtain ⟨final, hrun⟩ : ∃ final, Machine.exec step new ops = some final := ⟨_, rfl⟩
  have hall := (lawful_iff_phases hrun).mpr ⟨.restarted 8, rfl⟩
  refine ⟨final, hrun, ?_, hall ops final (List.prefix_refl ops) hrun⟩
  obtain rfl := Option.some.inj hrun
  rfl

-- The second join of the same thread, and a join of no thread at all, are passed on.
theorem joined_twice :
    ∃ final, Machine.exec step new [.run 0 ⟨0, 7⟩, .join 0, .join 3] = some final ∧
      final.calls = [.created 7, .join 7, .join 7] ∧ ¬final.Lawful := by
  refine ⟨⟨7, true, [.created 7, .join 7, .join 7]⟩, rfl, rfl, fun h => ?_⟩
  have hpending : pending 7 [.created 7, .join 7] = true :=
    h.issued [.created 7, .join 7] (.join 7) [] rfl
  exact absurd hpending (by decide)

end IgLibs.Thread
