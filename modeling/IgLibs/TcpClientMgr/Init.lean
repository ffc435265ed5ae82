import IgLibs.TcpClientMgr
import IgLibs.StringUtils.Theorems
import IgLibs.TcpClient.Changes

namespace IgLibs.TcpClientMgr

open BossCommon

-- host:port with one colon, as the comment above init documents it.
def HostPort (entry host port : List UInt8) : Prop :=
  host ≠ [] ∧ port ≠ [] ∧ 58 ∉ host ∧ 58 ∉ port ∧ entry = host ++ 58 :: port

def documented (entry : List UInt8) : Option (List UInt8 × List UInt8) :=
  match entry.splitOn 58 with
  | [host, port] => if host ≠ [] ∧ port ≠ [] then some (host, port) else none
  | _ => none

-- What init takes an entry for.
def parsed (entry : List UInt8) : Option (List UInt8 × List UInt8) :=
  match split entry 58 with
  | [host, port] => some (host, port)
  | _ => none

-- Entries that split cuts in two although they are not of the form host:port.
def Misread (entry : List UInt8) : Prop :=
  (∃ port, port ≠ [] ∧ 58 ∉ port ∧ entry = 58 :: port) ∨
    ∃ host port, 58 ∉ host ∧ 58 ∉ port ∧ entry = host ++ 58 :: port ++ [58]

-- The entries that get a connection, in the rounds of the loop.
def kept : List (List UInt8) → (Nat → EntryAnswers) → List (List UInt8 × List UInt8)
  | [], _ => []
  | entry :: rest, answers =>
      (if (answers 0).allocated then (parsed entry).toList else []) ++
        kept rest fun round => answers (round + 1)

-- The arguments that a connection was made with.
def arguments (c : TcpClient) : List UInt8 × List UInt8 := (c.m_str_host, c.m_str_port)

section

variable {entry host port : List UInt8} {f final : Fields}

theorem splitOn_pair_iff :
    entry.splitOn 58 = [host, port] ↔ 58 ∉ host ∧ 58 ∉ port ∧ entry = host ++ 58 :: port := by
  rw [splitOn_eq_iff]
  simp [List.intercalate, and_assoc]

theorem splitOn_triple_iff :
    entry.splitOn 58 = [host, port, []] ↔
      58 ∉ host ∧ 58 ∉ port ∧ entry = host ++ 58 :: port ++ [58] := by
  rw [splitOn_eq_iff]
  simp [List.intercalate, and_assoc]

theorem documented_iff : documented entry = some (host, port) ↔ HostPort entry host port := by
  have hpair : HostPort entry host port ↔
      host ≠ [] ∧ port ≠ [] ∧ entry.splitOn 58 = [host, port] := by
    rw [splitOn_pair_iff]
    rfl
  rw [hpair]
  unfold documented
  split
  · rename_i host' port' heq
    rw [heq]
    split_ifs with hne
    · simp only [Option.some.injEq, Prod.mk.injEq, List.cons.injEq, and_true]
      constructor
      · rintro ⟨rfl, rfl⟩
        exact ⟨hne.1, hne.2, rfl, rfl⟩
      · exact fun h => h.2.2
    · simp only [List.cons.injEq, and_true, false_iff]
      rintro ⟨hhost, hport, rfl, rfl⟩
      exact hne ⟨hhost, hport⟩
  · rename_i hother
    simp only [reduceCtorEq, false_iff]
    exact fun h => hother _ _ h.2.2

theorem parsed_eq_some_iff : parsed entry = some (host, port) ↔ split entry 58 = [host, port] := by
  unfold parsed
  split
  · rename_i heq
    rw [heq]
    simp
  · rename_i hother
    simp only [reduceCtorEq, false_iff]
    exact hother _ _

-- An entry of the documented form is taken for what it says.
theorem parsed_of_documented {args : List UInt8 × List UInt8} (h : documented entry = some args) :
    parsed entry = some args := by
  obtain ⟨host, port⟩ := args
  obtain ⟨-, hport, hcolon, hcolon', rfl⟩ := documented_iff.mp h
  rw [parsed_eq_some_iff, split_item hcolon, split_last hcolon' hport]

theorem misread_iff : Misread entry ↔ ∃ args, parsed entry = some args ∧ documented entry = none := by
  constructor
  · rintro (⟨port, hport, hcolon, rfl⟩ | ⟨host, port, hcolon, hcolon', rfl⟩)
    · refine ⟨([], port), ?_, ?_⟩
      · rw [parsed_eq_some_iff]
        exact (@split_item 58 [] (by simp) port).trans (by rw [split_last hcolon hport])
      · have hpieces : (58 :: port).splitOn 58 = [[], port] :=
          splitOn_pair_iff.mpr ⟨by simp, hcolon, rfl⟩
        simp [documented, hpieces]
    · refine ⟨(host, port), ?_, ?_⟩
      · rw [parsed_eq_some_iff, List.append_assoc, List.cons_append, split_item hcolon,
          split_item hcolon', split_nil]
      · have hpieces := splitOn_triple_iff.mpr ⟨hcolon, hcolon', rfl⟩
        simp only [documented, hpieces]
  · rintro ⟨⟨host, port⟩, hparsed, hnone⟩
    have hpieces := splitOn_eq_split 58 entry
    rw [parsed_eq_some_iff.mp hparsed] at hpieces
    by_cases hlast : entry.getLast?.all (· = 58) = true
    · rw [if_pos hlast] at hpieces
      exact .inr ⟨host, port, splitOn_triple_iff.mp hpieces⟩
    · rw [if_neg hlast] at hpieces
      obtain ⟨hcolon, hcolon', rfl⟩ := splitOn_pair_iff.mp hpieces
      have hport : port ≠ [] := by
        rintro rfl
        exact hlast (by simp)
      have hhost : host = [] := by
        by_contra hhost
        rw [documented_iff.mpr ⟨hhost, hport, hcolon, hcolon', rfl⟩] at hnone
        cases hnone
      exact .inl ⟨port, hport, hcolon', by rw [hhost]; rfl⟩

theorem parsed_eq_documented_iff : parsed entry = documented entry ↔ ¬Misread entry := by
  rw [misread_iff]
  cases hdocumented : documented entry with
  | some args => simp [parsed_of_documented hdocumented]
  | none => cases parsed entry <;> simp

theorem misread_nil : ¬Misread [] := by
  rw [← parsed_eq_documented_iff]
  rfl

-- Two ways to filter a list, one of which keeps what the other one does.
theorem filterMap_eq_iff {α β : Type*} {f g : α → Option β}
    (hfg : ∀ a b, g a = some b → f a = some b) (l : List α) :
    l.filterMap f = l.filterMap g ↔ ∀ a ∈ l, f a = g a := by
  have hle (l : List α) : (l.filterMap g).length ≤ (l.filterMap f).length := by
    induction l with
    | nil => simp
    | cons a l ih =>
        cases hg : g a with
        | none =>
            rw [List.filterMap_cons_none hg]
            cases hf : f a with
            | none => rwa [List.filterMap_cons_none hf]
            | some b =>
                rw [List.filterMap_cons_some hf, List.length_cons]
                omega
        | some b =>
            rw [List.filterMap_cons_some hg, List.filterMap_cons_some (hfg a b hg)]
            simpa using ih
  induction l with
  | nil => simp
  | cons a l ih =>
      rw [List.forall_mem_cons]
      refine Iff.trans ?_ (and_congr_right' ih)
      cases hg : g a with
      | some b =>
          have hf := hfg a b hg
          rw [List.filterMap_cons_some hg, List.filterMap_cons_some hf, hf]
          simp
      | none =>
          rw [List.filterMap_cons_none hg]
          cases hf : f a with
          | none => simp [List.filterMap_cons_none hf]
          | some b =>
              rw [List.filterMap_cons_some hf]
              refine iff_of_false (fun heq => ?_) (by simp)
              have hlen := congrArg List.length heq
              have := hle l
              rw [List.length_cons] at hlen
              omega

theorem kept_of_allocated (entries : List (List UInt8)) : ∀ (answers : Nat → EntryAnswers),
    (∀ round, (answers round).allocated = true) → kept entries answers = entries.filterMap parsed := by
  induction entries with
  | nil => exact fun _ _ => rfl
  | cons entry rest ih =>
      intro answers hall
      rw [kept, if_pos (hall 0), ih _ fun round => hall (round + 1)]
      cases hparsed : parsed entry with
      | none => rw [List.filterMap_cons_none hparsed]; rfl
      | some args => rw [List.filterMap_cons_some hparsed]; rfl

theorem arguments_connection (timeout : Int) (results : Option (List TcpClient.Resolved)) :
    arguments ((TcpClient.new.set_timeout timeout 0 0).1.connect_to host port results).1 =
      (host, port) :=
  (TcpClient.changes_connect_host _ results).stored_eq

def Fields.add (f : Fields) (c : TcpClient) : Fields :=
  { f with m_connections := f.m_connections ++ [c], m_conn_count := f.m_conn_count + 1 }

-- One round of the loop adds a connection with the arguments of the entry, or does nothing.
theorem init_entry_cases (f : Fields) (entry : List UInt8) (timeout : Int) (ans : EntryAnswers) :
    (∃ c, init_entry f entry timeout ans = f.add c ∧
        (if ans.allocated then (parsed entry).toList else []) = [arguments c]) ∨
      init_entry f entry timeout ans = f ∧
        (if ans.allocated then (parsed entry).toList else []) = [] := by
  cases hparsed : parsed entry with
  | none =>
      refine .inr ⟨?_, by simp⟩
      unfold init_entry
      split
      · rename_i heq
        rw [parsed_eq_some_iff.mpr heq] at hparsed
        cases hparsed
      · rfl
  | some args =>
      obtain ⟨host, port⟩ := args
      unfold init_entry
      rw [parsed_eq_some_iff.mp hparsed]
      by_cases hnew : ans.allocated = true
      · refine .inl ⟨_, if_pos hnew, ?_⟩
        rw [if_pos hnew, arguments_connection]
        rfl
      · exact .inr ⟨if_neg hnew, if_neg hnew⟩

-- The counter counts, and there are no more connections than rounds.
def Counted (f : Fields) (rounds : Nat) : Prop :=
  f.m_conn_count.toNat = f.m_connections.length ∧ f.m_connections.length ≤ rounds

theorem Counted.init_entry {rounds : Nat} (h : Counted f rounds) (hlt : rounds + 1 < 2 ^ 32)
    (entry : List UInt8) (timeout : Int) (ans : EntryAnswers) :
    Counted (init_entry f entry timeout ans) (rounds + 1) := by
  obtain ⟨hcount, hle⟩ := h
  rcases init_entry_cases f entry timeout ans with ⟨c, heq, -⟩ | ⟨heq, -⟩
  · rw [heq]
    refine ⟨?_, by simpa [Fields.add] using hle⟩
    have hone : (1 : BitVec 32).toNat = 1 := rfl
    simp only [Fields.add, List.length_append, List.length_singleton, BitVec.toNat_add, hone]
    rw [Nat.mod_eq_of_lt (by omega), hcount]
  · rw [heq]
    exact ⟨hcount, by omega⟩

variable {addr_vec : List (List UInt8)} {timeout : Int} {fuel : Nat} {i : BitVec 32}
  {answers : Nat → EntryAnswers}

-- A loop that has ended does so with any more fuel.
theorem init_loop_mono {fuel' : Nat} (hle : fuel ≤ fuel')
    (hloop : init_loop addr_vec timeout fuel i answers f = some final) :
    init_loop addr_vec timeout fuel' i answers f = some final := by
  induction fuel generalizing fuel' i answers f with
  | zero => cases hloop
  | succ fuel ih =>
      obtain ⟨fuel', rfl⟩ := Nat.exists_eq_add_of_lt hle
      rw [show fuel + fuel' + 1 = (fuel + fuel') + 1 from rfl, init_loop]
      rw [init_loop] at hloop
      cases hentry : addr_vec[i.toNat]? with
      | none => rwa [hentry] at hloop
      | some entry =>
          rw [hentry] at hloop
          exact ih (Nat.le_add_right _ _) hloop

-- With 2^32 entries the counter wraps before it reaches the end.
theorem init_loop_endless (hlen : 2 ^ 32 ≤ addr_vec.length) :
    init_loop addr_vec timeout fuel i answers f = none := by
  induction fuel generalizing i answers f with
  | zero => rfl
  | succ fuel ih =>
      have hi : i.toNat < addr_vec.length := lt_of_lt_of_le i.isLt hlen
      rw [init_loop, List.getElem?_eq_getElem hi]
      exact ih

-- From the counter on, the loop adds the connections of the entries that are left.
theorem init_loop_spec (hlen : addr_vec.length < 2 ^ 32) (hfuel : addr_vec.length - i.toNat < fuel)
    (hi : i.toNat ≤ addr_vec.length) (hcounted : Counted f i.toNat) :
    ∃ final, init_loop addr_vec timeout fuel i answers f = some final ∧
      final.m_connections.map arguments =
        f.m_connections.map arguments ++ kept (addr_vec.drop i.toNat) answers ∧
      Counted final addr_vec.length := by
  induction fuel generalizing i answers f with
  | zero => omega
  | succ fuel ih =>
      rw [init_loop]
      by_cases hend : i.toNat = addr_vec.length
      · rw [hend, List.getElem?_eq_none (Nat.le_refl _), List.drop_length]
        rw [hend] at hcounted
        exact ⟨f, rfl, by simp [kept], hcounted⟩
      have hlt : i.toNat < addr_vec.length := by omega
      have hone : (1 : BitVec 32).toNat = 1 := rfl
      have hnext : (i + 1).toNat = i.toNat + 1 := by
        rw [BitVec.toNat_add, hone, Nat.mod_eq_of_lt (by omega)]
      have hcounted' := hcounted.init_entry (by omega) addr_vec[i.toNat] timeout (answers 0)
      rw [← hnext] at hcounted'
      obtain ⟨final, hloop, hmap, hfinal⟩ := @ih (init_entry f addr_vec[i.toNat] timeout (answers 0))
        (i + 1) (fun round => answers (round + 1)) (by omega) (by omega) hcounted'
      rw [List.getElem?_eq_getElem hlt, List.drop_eq_getElem_cons hlt, kept]
      refine ⟨final, hloop, ?_, hfinal⟩
      rw [hmap, hnext]
      rcases init_entry_cases f addr_vec[i.toNat] timeout (answers 0) with ⟨c, heq, hkept⟩ | ⟨heq, hkept⟩
      · rw [heq, hkept]
        simp [Fields.add]
      · rw [heq, hkept, List.nil_append]

end

-- On a manager without connections.
theorem init_returns {m : TcpClientMgr} (hm : m.m_connections = []) (fuel : Nat)
    (host_list : List UInt8) (send_type timeout : Int) (answers : Nat → EntryAnswers) :
    ((split host_list 59).length < 2 ^ 32 → (split host_list 59).length < fuel →
        ∃ final ret, init m.fields fuel host_list send_type timeout answers = some (final, ret) ∧
          final.m_connections.map arguments = kept (split host_list 59) answers ∧
          final.m_conn_count.toNat = final.m_connections.length) ∧
      (2 ^ 32 ≤ (split host_list 59).length →
        init m.fields fuel host_list send_type timeout answers = none) := by
  have hzero : m.m_conn_count = 0 := by
    apply BitVec.eq_of_toNat_eq
    rw [m.counted, hm]
    rfl
  have hcount : ¬0 < m.fields.m_conn_count := by
    simp [fields, hzero]
  unfold init
  rw [if_neg hcount]
  by_cases hnil : host_list = []
  · rw [if_pos hnil]
    subst hnil
    refine ⟨fun _ _ => ⟨m.fields, -1, rfl, ?_, m.counted⟩, fun hlen => absurd hlen (by decide)⟩
    rw [show m.fields.m_connections = [] from hm]
    rfl
  · rw [if_neg hnil]
    constructor
    · intro hlen hfuel
      obtain ⟨final, hloop, hmap, hfinal⟩ := @init_loop_spec
        { m.fields with m_send_type := if send_type ≠ 0 ∧ send_type ≠ 1 then 1 else send_type }
        (split host_list 59) timeout fuel 0 answers hlen (by simpa using hfuel) (by simp)
        ⟨m.counted, by simp [fields, hm]⟩
      refine ⟨final, 0, congrArg (Option.map fun f => (f, (0 : Int))) hloop, ?_, hfinal.1⟩
      rw [hmap]
      simp [fields, hm]
    · intro hlen
      exact congrArg (Option.map fun f => (f, (0 : Int))) (init_loop_endless hlen)

theorem init_mono {f : Fields} {fuel fuel' : Nat} (hle : fuel ≤ fuel') {host_list : List UInt8}
    {send_type timeout : Int} {answers : Nat → EntryAnswers} {result : Fields × Int}
    (hcall : init f fuel host_list send_type timeout answers = some result) :
    init f fuel' host_list send_type timeout answers = some result := by
  unfold init at hcall ⊢
  by_cases hcount : 0 < f.m_conn_count
  · rwa [if_pos hcount] at hcall ⊢
  rw [if_neg hcount] at hcall ⊢
  by_cases hnil : host_list = []
  · rwa [if_pos hnil] at hcall ⊢
  · rw [if_neg hnil] at hcall ⊢
    obtain ⟨final, hloop, rfl⟩ := Option.map_eq_some_iff.mp hcall
    exact congrArg (Option.map fun f => (f, (0 : Int))) (init_loop_mono hle hloop)

-- init connects to the documented entries, and to nothing else, exactly when there are fewer
-- than 2^32 entries and none of them is misread.
theorem init_documented_iff (host_list : List UInt8) :
    (∀ (m : TcpClientMgr) (send_type timeout : Int) (answers : Nat → EntryAnswers),
      m.m_connections = [] → (∀ round, (answers round).allocated = true) →
      ∃ fuel final ret, init m.fields fuel host_list send_type timeout answers = some (final, ret) ∧
        final.m_connections.map arguments = (host_list.splitOn 59).filterMap documented ∧
        final.m_conn_count.toNat = final.m_connections.length) ↔
    (split host_list 59).length < 2 ^ 32 ∧ ∀ entry ∈ host_list.splitOn 59, ¬Misread entry := by
  have hpieces := splitOn_eq_split 59 host_list
  have hdocumented : (host_list.splitOn 59).filterMap documented =
      (split host_list 59).filterMap documented := by
    rw [hpieces]
    split_ifs
    · simp [show documented [] = none from rfl]
    · simp
  have hmisread : (∀ entry ∈ host_list.splitOn 59, ¬Misread entry) ↔
      (split host_list 59).filterMap parsed = (split host_list 59).filterMap documented := by
    rw [filterMap_eq_iff fun _ _ => parsed_of_documented, hpieces]
    simp only [parsed_eq_documented_iff, List.forall_mem_append]
    refine and_iff_left ?_
    split_ifs
    · simpa using misread_nil
    · simp
  rw [hdocumented, hmisread]
  constructor
  · intro h
    obtain ⟨fuel, final, ret, hcall, hmap, -⟩ :=
      h ⟨[], 0, 0, 0, rfl⟩ 0 0 (fun _ => ⟨true, none⟩) rfl fun _ => rfl
    have henough := init_mono (Nat.le_add_right fuel ((split host_list 59).length + 1)) hcall
    obtain ⟨hreturns, hendless⟩ := @init_returns ⟨[], 0, 0, 0, rfl⟩ rfl
      (fuel + ((split host_list 59).length + 1)) host_list 0 0 (fun _ => ⟨true, none⟩)
    by_cases hlen : (split host_list 59).length < 2 ^ 32
    · obtain ⟨final', ret', hcall', hmap', -⟩ := hreturns hlen (by omega)
      obtain ⟨rfl, -⟩ := Prod.mk.inj (Option.some.inj (henough.symm.trans hcall'))
      rw [hmap, kept_of_allocated _ _ fun _ => rfl] at hmap'
      exact ⟨hlen, hmap'.symm⟩
    · rw [hendless (not_lt.mp hlen)] at henough
      cases henough
  · rintro ⟨hlen, hsame⟩ m send_type timeout answers hm hnew
    obtain ⟨final, ret, hcall, hmap, hcount⟩ :=
      (init_returns hm ((split host_list 59).length + 1) host_list send_type timeout answers).1
        hlen (Nat.lt_succ_self _)
    refine ⟨_, final, ret, hcall, ?_, hcount⟩
    rw [hmap, kept_of_allocated _ _ hnew, hsame]

-- An entry with a colon behind the port, and one without a host, get a connection each.
theorem init_takes_misread :
    ∃ final, init (⟨[], 0, 0, 0, rfl⟩ : TcpClientMgr).fields 3 [97, 58, 98, 58, 59, 58, 49] 0 2
        (fun _ => ⟨true, none⟩) = some (final, 0) ∧
      final.m_connections.map arguments = [([97], [98]), ([], [49])] ∧
      ([97, 58, 98, 58, 59, 58, 49].splitOn (59 : UInt8)).filterMap documented = [] :=
  ⟨_, rfl, rfl, rfl⟩

end IgLibs.TcpClientMgr
