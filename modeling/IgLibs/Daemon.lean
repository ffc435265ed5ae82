import IgLibs.Machine
import IgLibs.Posix
import IgLibs.Printf

namespace IgLibs.Daemon

open Machine CString Printf

-- What fork returns to.
inductive Fork
  | failed | child | parent
deriving DecidableEq

structure Answers where
  fork : Fork
  setsid : Bool
  chdir : Bool
  fault : Bool
deriving DecidableEq

-- "/dev/null"
def dev_null : List UInt8 := [47, 100, 101, 118, 47, 110, 117, 108, 108]

-- The part of daemonize that puts the standard descriptors on /dev/null.
def redirect (k : Posix (List UInt8)) (fault : Bool) : Posix (List UInt8) × Int :=
  let (k, fd) := k.open_file dev_null false fault
  if fd = -1 then (k, 0)
  else
    let (k, r) := k.dup2 fd 0
    if r < 0 then (k, -1)
    else
      let (k, r) := k.dup2 fd 1
      if r < 0 then (k, -1)
      else
        let (k, r) := k.dup2 fd 2
        if r < 0 then (k, -1)
        else if 2 < fd then
          let (k, r) := k.close fd
          if r < 0 then (k, -1) else (k, 0)
        else (k, 0)

-- No result is the exit of the parent.
def daemonize (k : Posix (List UInt8)) (nochdir noclose : Int) (answers : Answers) :
    Posix (List UInt8) × Option Int :=
  match answers.fork with
  | .failed => (k, some (-1))
  | .parent => (k, none)
  | .child =>
      if !answers.setsid then (k, some (-1))
      else if nochdir = 0 ∧ answers.chdir = false then (k, some (-1))
      else if noclose = 0 then
        let (k, r) := redirect k answers.fault
        (k, some r)
      else (k, some 0)

section

variable {k : Posix (List UInt8)} {file : Nat} {fd i : Int}

theorem dup2_opened (hopen : k.file fd = some file) {new : Int} (hnew : 0 ≤ new) :
    (k.dup2 fd new).2 = new := by
  unfold Posix.dup2
  rw [if_neg]
  rintro (hno | hno)
  · rw [hopen] at hno
    cases hno
  · omega

theorem file_dup2_opened (hopen : k.file fd = some file) {new : Int} (hnew : 0 ≤ new) (i : Int) :
    (k.dup2 fd new).1.file i = if i = new then some file else k.file i := by
  rw [Posix.file_dup2, hopen]
  have hsome : (some file : Option Nat) ≠ none := Option.some_ne_none file
  simp only [hsome, hnew, ne_eq, not_false_eq_true, true_and]

-- Whichever descriptors are closed at first, the new one is put over the three standard ones and
-- stays open only as one of them.
theorem redirect_spec (k : Posix (List UInt8)) (fault : Bool) :
    (redirect k fault).2 = 0 ∧ ∀ i, (redirect k fault).1.file i =
      if fault = false ∧ k.dir dev_null ≠ none ∧ 0 ≤ i ∧ i < 3 then k.dir dev_null
      else k.file i := by
  by_cases hfound : fault = false ∧ k.dir dev_null ≠ none
  · obtain ⟨rfl, hname⟩ := hfound
    obtain ⟨k₁, file, hopen, -, -, hfile, hfile₁⟩ :=
      k.open_found (.inl hname : k.dir dev_null ≠ none ∨ false = true)
    rw [Posix.create_of_named hname] at hfile
    have hfree := k.file_lowest
    generalize hfd : (Posix.lowest k.table : Int) = fd at hopen hfile₁ hfree
    have hpos : 0 ≤ fd := by omega
    have hopen₁ : k₁.file fd = some file := by rw [hfile₁, if_pos rfl]
    have hfile₂ := file_dup2_opened hopen₁ (by omega : (0 : Int) ≤ 0)
    have hopen₂ : (k₁.dup2 fd 0).1.file fd = some file := by
      rw [hfile₂, hopen₁, ite_self]
    have hfile₃ := file_dup2_opened hopen₂ (by omega : (0 : Int) ≤ 1)
    have hopen₃ : ((k₁.dup2 fd 0).1.dup2 fd 1).1.file fd = some file := by
      rw [hfile₃, hopen₂, ite_self]
    have hfile₄ := file_dup2_opened hopen₃ (by omega : (0 : Int) ≤ 2)
    have hopen₄ : (((k₁.dup2 fd 0).1.dup2 fd 1).1.dup2 fd 2).1.file fd = some file := by
      rw [hfile₄, hopen₃, ite_self]
    unfold redirect
    rw [hopen]
    dsimp only
    rw [if_neg (by omega), if_neg (by rw [dup2_opened hopen₁] <;> omega),
      if_neg (by rw [dup2_opened hopen₂] <;> omega), if_neg (by rw [dup2_opened hopen₃] <;> omega)]
    have hclose : ∀ k' : Posix (List UInt8), k'.file fd = some file → (k'.close fd).2 = 0 := by
      intro k' hk'
      rw [Posix.close, if_neg (by rw [hk']; exact Option.some_ne_none _)]
    have hfinal : ∀ i, (((k₁.dup2 fd 0).1.dup2 fd 1).1.dup2 fd 2).1.file i =
        if 0 ≤ i ∧ i < 3 ∨ i = fd then some file else k.file i := by
      intro i
      rw [hfile₄, hfile₃, hfile₂, hfile₁]
      split_ifs <;> first | rfl | omega
    by_cases hthree : 2 < fd
    · rw [if_pos hthree, hclose _ hopen₄, if_neg (by omega)]
      refine ⟨rfl, fun i => ?_⟩
      rw [Posix.file_close, hfinal, hfile]
      by_cases hi : i = fd
      · rw [if_pos hi, if_neg (by omega), hi, hfree]
      · rw [if_neg hi]
        simp only [hi, or_false, ne_eq, reduceCtorEq, not_false_eq_true, true_and]
    · rw [if_neg hthree]
      refine ⟨rfl, fun i => ?_⟩
      rw [hfinal, hfile]
      have hiff : (0 ≤ i ∧ i < 3 ∨ i = fd) ↔ 0 ≤ i ∧ i < 3 := by omega
      simp only [hiff, ne_eq, reduceCtorEq, not_false_eq_true, true_and]
  · have hfail : k.open_file dev_null false fault = (k, -1) := by
      cases fault with
      | true => rfl
      | false =>
          have hnone : k.dir dev_null = none := by
            by_contra hno
            exact hfound ⟨rfl, hno⟩
          rw [Posix.open_file, if_neg Bool.false_ne_true, if_pos ⟨hnone, rfl⟩]
    unfold redirect
    rw [hfail]
    refine ⟨rfl, fun i => ?_⟩
    rw [if_neg (fun hno => hfound ⟨hno.1, hno.2.1⟩)]
    rfl

end

-- The child's descriptors behind daemonize: nothing changes, or stdin, stdout and stderr are on
-- /dev/null and every other descriptor is what it was.
theorem descriptors_of_daemonize (k : Posix (List UInt8)) (nochdir noclose : Int) (answers : Answers)
    (i : Int) : (daemonize k nochdir noclose answers).1.file i =
      if (daemonize k nochdir noclose answers).2 = some 0 ∧ noclose = 0 ∧ answers.fault = false ∧
        k.dir dev_null ≠ none ∧ 0 ≤ i ∧ i < 3 then k.dir dev_null
      else k.file i := by
  unfold daemonize
  obtain ⟨hzero, hfile⟩ := redirect_spec k answers.fault
  cases answers.fork with
  | failed | parent =>
      refine (if_neg ?_).symm
      rintro ⟨hno, -⟩
      cases hno
  | child =>
      dsimp only
      split
      · refine (if_neg ?_).symm
        rintro ⟨hno, -⟩
        cases hno
      · split
        · refine (if_neg ?_).symm
          rintro ⟨hno, -⟩
          cases hno
        · split
          · rename_i hclose
            dsimp only
            rw [hfile, hzero]
            simp only [hclose, true_and]
          · rename_i hclose
            exact (if_neg (fun hno => hclose hno.2.1)).symm

end IgLibs.Daemon
