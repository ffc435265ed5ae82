import Mathlib.Data.List.Nodup
import IgLibs.Posix

namespace IgLibs

-- What has become of a volume: it is on the list of those that a limit may remove, it has been
-- removed from there, or it never was on the list.
inductive Fate
  | listed | removed | loose
deriving DecidableEq

structure Volume (N : Type*) where
  name : N
  bytes : List UInt8
  fate : Fate

-- A log in volumes, all but the current one closed for good.
structure Archive (N : Type*) where
  past : List (Volume N)
  current : List UInt8

namespace Archive

variable {N : Type*}

def bytes (a : Archive N) : List UInt8 := a.past.flatMap Volume.bytes ++ a.current

def names (a : Archive N) : List N := a.past.map Volume.name

def listed (past : List (Volume N)) : List N :=
  (past.filter fun v => v.fate = .listed).map Volume.name

def log (a : Archive N) (text : List UInt8) : Archive N := { a with current := a.current ++ text }

def remove_first : List (Volume N) → List (Volume N)
  | [] => []
  | v :: rest =>
      if v.fate = .listed then { v with fate := .removed } :: rest else v :: remove_first rest

-- With a limit, a full list gives up its first volume for the next one.
def make_room (limit : Nat) (past : List (Volume N)) : List (Volume N) :=
  if 0 < limit ∧ limit ≤ (listed past).length then remove_first past else past

def fate (limit : Nat) : Fate := if 0 < limit then .listed else .loose

-- The current volume is closed.
def close (a : Archive N) (limit : Nat) (name : N) : Archive N where
  past := make_room limit a.past ++ [⟨name, a.current, fate limit⟩]
  current := []

-- Removed volumes are older than all listed ones.
def Ordered (past : List (Volume N)) : Prop :=
  past.Pairwise fun older newer => newer.fate = .removed → older.fate ≠ .listed

section

variable {a : Archive N} {past : List (Volume N)} {v : Volume N} {limit : Nat} {name : N}

theorem listed_append (past more : List (Volume N)) :
    listed (past ++ more) = listed past ++ listed more := by
  rw [listed, List.filter_append, List.map_append]
  rfl

theorem listed_cons (v : Volume N) (past : List (Volume N)) :
    listed (v :: past) = (if v.fate = .listed then [v.name] else []) ++ listed past := by
  rw [listed, List.filter_cons]
  split <;> simp_all [listed]

theorem bytes_log (a : Archive N) (text : List UInt8) :
    (a.log text).bytes = a.bytes ++ text := (List.append_assoc ..).symm

-- Either nothing is listed, or the first listed volume is removed.
theorem remove_first_cases (past : List (Volume N)) :
    (listed past = [] ∧ remove_first past = past) ∨
      ∃ before v after, past = before ++ v :: after ∧ v.fate = .listed ∧
        (∀ older ∈ before, older.fate ≠ .listed) ∧
        remove_first past = before ++ { v with fate := .removed } :: after ∧
        listed past = v.name :: listed after := by
  induction past with
  | nil => exact .inl ⟨rfl, rfl⟩
  | cons v rest ih =>
      rw [remove_first, listed_cons]
      by_cases hfate : v.fate = .listed
      · rw [if_pos hfate, if_pos hfate]
        exact .inr ⟨[], v, rest, rfl, hfate, fun _ h => absurd h List.not_mem_nil, rfl, rfl⟩
      · rw [if_neg hfate, if_neg hfate]
        rcases ih with ⟨hlisted, hrest⟩ | ⟨before, w, after, hrest, hw, hbefore, hremoved, hlisted⟩
        · exact .inl ⟨by rw [hlisted]; rfl, by rw [hrest]⟩
        · refine .inr ⟨v :: before, w, after, by rw [hrest]; rfl, hw, ?_, by rw [hremoved]; rfl, ?_⟩
          · intro older hmem
            rcases List.mem_cons.mp hmem with rfl | hmem
            · exact hfate
            · exact hbefore older hmem
          · rw [hlisted]
            rfl

theorem remove_first_bytes (past : List (Volume N)) :
    (remove_first past).flatMap Volume.bytes = past.flatMap Volume.bytes := by
  rcases remove_first_cases past with ⟨-, hsame⟩ | ⟨before, v, after, hpast, -, -, hremoved, -⟩
  · rw [hsame]
  · rw [hremoved, hpast]
    simp only [List.flatMap_append, List.flatMap_cons]

theorem remove_first_names (past : List (Volume N)) :
    (remove_first past).map Volume.name = past.map Volume.name := by
  rcases remove_first_cases past with ⟨-, hsame⟩ | ⟨before, v, after, hpast, -, -, hremoved, -⟩
  · rw [hsame]
  · rw [hremoved, hpast]
    simp only [List.map_append, List.map_cons]

theorem listed_remove_first (past : List (Volume N)) :
    listed (remove_first past) = (listed past).tail := by
  rcases remove_first_cases past with ⟨hnone, hsame⟩ | ⟨before, v, after, -, -, hno, hremoved, hlisted⟩
  · rw [hsame, hnone]
    rfl
  · have hbefore : listed before = [] := by
      rw [listed, List.filter_eq_nil_iff.mpr, List.map_nil]
      exact fun older hmem => by simpa using hno older hmem
    rw [hremoved, hlisted, listed_append, listed_cons, hbefore, if_neg (by simp)]
    rfl

theorem Ordered.remove_first (h : Ordered past) : Ordered (remove_first past) := by
  rcases remove_first_cases past with ⟨-, hsame⟩ | ⟨before, v, after, hpast, -, hno, hremoved, -⟩
  · rwa [hsame]
  · rw [hpast] at h
    rw [hremoved]
    obtain ⟨hbefore, hafter, hacross⟩ := List.pairwise_append.mp h
    obtain ⟨hv, hafter⟩ := List.pairwise_cons.mp hafter
    refine List.pairwise_append.mpr ⟨hbefore, List.pairwise_cons.mpr ⟨?_, hafter⟩, ?_⟩
    · exact fun newer _ _ => Fate.noConfusion
    · exact fun older holder newer _ _ => hno older holder

theorem Ordered.concat (h : Ordered past) (hv : v.fate ≠ .removed) : Ordered (past ++ [v]) := by
  refine List.pairwise_append.mpr ⟨h, List.pairwise_singleton .., ?_⟩
  intro older _ newer hnewer hremoved
  rw [List.mem_singleton.mp hnewer] at hremoved
  exact absurd hremoved hv

theorem fate_ne_removed (limit : Nat) : fate limit ≠ .removed := by
  rw [fate]
  split <;> exact Fate.noConfusion

theorem Ordered.make_room (h : Ordered past) (limit : Nat) : Ordered (make_room limit past) := by
  rw [Archive.make_room]
  split
  · exact h.remove_first
  · exact h

theorem ordered_close (h : Ordered a.past) : Ordered (a.close limit name).past :=
  (h.make_room limit).concat (fate_ne_removed limit)

theorem make_room_names (limit : Nat) (past : List (Volume N)) :
    (make_room limit past).map Volume.name = past.map Volume.name := by
  rw [make_room]
  split
  · exact remove_first_names past
  · rfl

-- Nothing that was written is lost from the archive when a volume is closed.
theorem bytes_close (a : Archive N) (limit : Nat) (name : N) :
    (a.close limit name).bytes = a.bytes := by
  have hroom : (make_room limit a.past).flatMap Volume.bytes = a.past.flatMap Volume.bytes := by
    rw [make_room]
    split
    · exact remove_first_bytes a.past
    · rfl
  rw [bytes, bytes, close, List.flatMap_append, hroom, List.append_nil, List.flatMap_singleton]

theorem forall_bytes_close (good : List UInt8 → Prop) (hpast : ∀ v ∈ a.past, good v.bytes)
    (hcurrent : good a.current) : ∀ v ∈ (a.close limit name).past, good v.bytes := by
  intro v hv
  rcases List.mem_append.mp hv with hv | hv
  · rw [make_room] at hv
    split at hv
    · rcases remove_first_cases a.past with ⟨-, hsame⟩ | ⟨before, w, after, heq, -, -, hremoved, -⟩
      · exact hpast v (hsame ▸ hv)
      · rw [hremoved] at hv
        rw [heq] at hpast
        rcases List.mem_append.mp hv with hv | hv
        · exact hpast v (List.mem_append_left _ hv)
        · rcases List.mem_cons.mp hv with rfl | hv
          · exact hpast w (List.mem_append_right _ List.mem_cons_self)
          · exact hpast v (List.mem_append_right _ (List.mem_cons_of_mem _ hv))
    · exact hpast v hv
  · rw [List.mem_singleton.mp hv]
    exact hcurrent

theorem names_close (a : Archive N) (limit : Nat) (name : N) :
    (a.close limit name).names = a.names ++ [name] := by
  rw [names, close, List.map_append, make_room_names]
  rfl

theorem listed_close (a : Archive N) (limit : Nat) (name : N) :
    listed (a.close limit name).past =
      if 0 < limit then
        (if limit ≤ (listed a.past).length then (listed a.past).tail else listed a.past) ++ [name]
      else listed a.past := by
  rw [close, listed_append, make_room, fate]
  by_cases hlimit : 0 < limit
  · rw [if_pos hlimit, if_pos hlimit]
    by_cases hfull : limit ≤ (listed a.past).length
    · rw [if_pos ⟨hlimit, hfull⟩, if_pos hfull, listed_remove_first]
      rfl
    · rw [if_neg (fun hno => hfull hno.2), if_neg hfull]
      rfl
  · rw [if_neg hlimit, if_neg hlimit, if_neg (fun hno => hlimit hno.1)]
    exact List.append_nil _

-- The list is no longer than the largest limit was.
theorem length_listed_close {bound : Nat} (h : (listed a.past).length ≤ bound)
    (hlimit : limit ≤ bound) : (listed (a.close limit name).past).length ≤ bound := by
  rw [listed_close]
  split_ifs
  · rw [List.length_append, List.length_tail, List.length_singleton]
    omega
  · rw [List.length_append, List.length_singleton]
    omega
  · exact h

end

end Archive

section

variable {N : Type*} {k k' : Posix N} {past : List (Volume N)}

-- The volumes are the files with their names, less the removed ones.
def Stores (k : Posix N) (past : List (Volume N)) : Prop :=
  ∀ v ∈ past, if v.fate = .removed then k.dir v.name = none
    else ∃ file, k.dir v.name = some file ∧ k.contents file = v.bytes

theorem Stores.congr (h : Stores k past) (hdir : ∀ v ∈ past, k'.dir v.name = k.dir v.name)
    (hcontents : ∀ v ∈ past, ∀ file, k.dir v.name = some file →
      k'.contents file = k.contents file) : Stores k' past := by
  intro v hv
  have hstored := h v hv
  split at hstored
  · rename_i hfate
    rw [if_pos hfate, hdir v hv, hstored]
  · rename_i hfate
    obtain ⟨file, hfile, hbytes⟩ := hstored
    rw [if_neg hfate]
    exact ⟨file, by rw [hdir v hv, hfile], by rw [hcontents v hv file hfile, hbytes]⟩

theorem Stores.concat {v : Volume N} (h : Stores k past) (hv : Stores k [v]) :
    Stores k (past ++ [v]) := by
  intro w hw
  rcases List.mem_append.mp hw with hw | hw
  · exact h w hw
  · exact hv w hw

variable [DecidableEq N] {a : Archive N} {name old : N}

-- The first listed volume is unlinked.
theorem Stores.remove_first (h : Stores k past) (hnodup : (past.map Volume.name).Nodup)
    {first : N} {rest : List N} (hlisted : Archive.listed past = first :: rest) :
    Stores (k.unlink first) (Archive.remove_first past) := by
  rcases Archive.remove_first_cases past with ⟨hnone, -⟩ | ⟨before, v, after, hpast, hv, -, hremoved, hl⟩
  · rw [hnone] at hlisted
    cases hlisted
  · obtain rfl : v.name = first := (List.cons.inj (hl.symm.trans hlisted)).1
    rw [hpast, List.map_append, List.map_cons] at hnodup
    have hmid := List.nodup_middle.mp hnodup
    have hout := (List.nodup_cons.mp hmid).1
    rw [hremoved]
    intro w hw
    have hcases : w.name ≠ v.name ∧ w ∈ past ∨ w = { v with fate := .removed } := by
      rcases List.mem_append.mp hw with hw | hw
      · refine .inl ⟨fun heq => hout ?_, ?_⟩
        · rw [← heq]
          exact List.mem_append_left _ (List.mem_map_of_mem hw)
        · rw [hpast]
          exact List.mem_append_left _ hw
      · rcases List.mem_cons.mp hw with rfl | hw
        · exact .inr rfl
        · refine .inl ⟨fun heq => hout ?_, ?_⟩
          · rw [← heq]
            exact List.mem_append_right _ (List.mem_map_of_mem hw)
          · rw [hpast]
            exact List.mem_append_right _ (List.mem_cons_of_mem _ hw)
    rcases hcases with ⟨hne, hmem⟩ | rfl
    · have hstored := h w hmem
      rw [Posix.dir_unlink, if_neg hne]
      exact hstored
    · rw [if_pos rfl, Posix.dir_unlink, if_pos rfl]

end

end IgLibs
