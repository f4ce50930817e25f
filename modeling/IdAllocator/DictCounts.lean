/-
The representation of a dictionary: its counters, its chains and its keys.

A call replaces one chain.  Whatever pair a key is taken for, it stands in the
bucket of the key, so the counters of that bucket are the ones to change.
-/
import Mathlib.Algebra.BigOperators.Fin
import Mathlib.Algebra.Order.BigOperators.Group.Finset
import IdAllocator.JumpConsistent

namespace IdAllocator

open FiniteMap

section Representation

variable {n : Nat} {V : Type} {bucket : CString → Fin n} {d : Dict n V}

/-- The counters are those of the chains, every pair is in the bucket of its key, and the keys
are distinct. -/
structure Dict.Sound (bucket : CString → Fin n) (d : Dict n V) : Prop where
  memberCount : ∀ i, (d.memberCount i).toNat = (d.members i).length
  count : d.count.toNat = ∑ i, (d.members i).length
  home : ∀ i, ∀ pair ∈ d.members i, bucket pair.key = i
  distinct : (d.pairs.map DictDataPair.key).Nodup

theorem sum_length_update {α : Type} (chains : Fin n → List α) (i : Fin n) (chain : List α) :
    (∑ j, (Function.update chains i chain j).length) + (chains i).length =
      (∑ j, (chains j).length) + chain.length := by
  have hothers : ∑ j ∈ Finset.univ.erase i, (Function.update chains i chain j).length =
      ∑ j ∈ Finset.univ.erase i, (chains j).length := by
    apply Finset.sum_congr rfl
    intro j hj
    rw [Function.update_of_ne (Finset.ne_of_mem_erase hj)]
  rw [← Finset.add_sum_erase _ _ (Finset.mem_univ i), hothers, Function.update_self,
    ← Finset.add_sum_erase _ (fun j => (chains j).length) (Finset.mem_univ i)]
  omega

theorem Dict.length_pairs (d : Dict n V) : d.pairs.length = ∑ i, (d.members i).length := by
  rw [Dict.pairs, List.length_flatMap, Fin.sum_univ_def]

theorem Dict.length_le_pairs (d : Dict n V) (i : Fin n) :
    (d.members i).length ≤ d.pairs.length := by
  rw [d.length_pairs]
  exact Finset.single_le_sum (f := fun j => (d.members j).length) (fun _ _ => Nat.zero_le _)
    (Finset.mem_univ i)

/-- Keys of two buckets differ, so what matters is each chain. -/
theorem nodup_keys_iff (hhome : ∀ i, ∀ pair ∈ d.members i, bucket pair.key = i) :
    (d.pairs.map DictDataPair.key).Nodup ↔
      ∀ i, ((d.members i).map DictDataPair.key).Nodup := by
  rw [Dict.pairs, List.map_flatMap, List.nodup_flatMap]
  constructor
  · intro h i
    exact h.1 i (List.mem_finRange i)
  · intro h
    refine ⟨fun i _ => h i, (List.nodup_finRange n).imp ?_⟩
    intro i j hij key hi hj
    obtain ⟨pair, hpair, rfl⟩ := List.mem_map.mp hi
    obtain ⟨other, hother, hkey⟩ := List.mem_map.mp hj
    have hbucket := hhome j other hother
    rw [hkey, hhome i pair hpair] at hbucket
    exact hij hbucket

theorem sound_dictCreate : (dictCreate n V).Sound bucket := by
  have hhome : ∀ i, ∀ pair ∈ (dictCreate n V).members i, bucket pair.key = i :=
    fun i pair hpair => absurd hpair List.not_mem_nil
  refine ⟨fun _ => rfl, by simp [dictCreate], hhome, (nodup_keys_iff hhome).mpr ?_⟩
  intro i
  exact List.nodup_nil

/-- One chain is replaced, with the counters that go with it. -/
theorem Dict.Sound.replace (h : d.Sound bucket) {i : Fin n} {chain : List (DictDataPair V)}
    {count number : UInt32} (hnumber : number.toNat = chain.length)
    (hcount : count.toNat + (d.members i).length = d.count.toNat + chain.length)
    (hhome : ∀ pair ∈ chain, bucket pair.key = i)
    (hdistinct : (chain.map DictDataPair.key).Nodup) :
    Dict.Sound bucket
      { count := count
        memberCount := Function.update d.memberCount i number
        members := Function.update d.members i chain } := by
  have hhome' : ∀ j, ∀ pair ∈ Function.update d.members i chain j, bucket pair.key = j := by
    intro j pair hpair
    by_cases hj : j = i
    · subst hj
      rw [Function.update_self] at hpair
      exact hhome pair hpair
    · rw [Function.update_of_ne hj] at hpair
      exact h.home j pair hpair
  refine ⟨?_, ?_, hhome', ?_⟩
  · intro j
    by_cases hj : j = i
    · subst hj
      simp only [Function.update_self, hnumber]
    · simp only [Function.update_of_ne hj, h.memberCount j]
  · have htotal := h.count
    have hupdate := sum_length_update d.members i chain
    simp only
    omega
  · apply (nodup_keys_iff hhome').mpr
    intro j
    by_cases hj : j = i
    · subst hj
      simp only [Function.update_self, hdistinct]
    · simp only [Function.update_of_ne hj]
      exact (nodup_keys_iff h.home).mp h.distinct j

theorem Dict.Sound.dictFind_eq (h : d.Sound bucket) (key : CString) :
    dictFind bucket d key = dictFindLoop key (d.members (bucket key)) := by
  apply dictFind_eq_loop
  intro hzero
  have hcount := h.memberCount (bucket key)
  rw [hzero] at hcount
  exact List.length_eq_zero_iff.mp hcount.symm

theorem Dict.Sound.put (h : d.Sound bucket) {key : CString} {val : V}
    (hroom : (dictPut bucket d key val).1.pairs.length < UInt32.size) :
    (dictPut bucket d key val).1.Sound bucket := by
  unfold dictPut at hroom ⊢
  rw [h.dictFind_eq] at hroom ⊢
  cases hfind : dictFindLoop key (d.members (bucket key)) with
  | some found => exact h
  | none =>
      have hnone := dictFindLoop_none hfind
      simp only [hfind] at hroom
      have htotal := sum_length_update d.members (bucket key)
        (⟨key, val⟩ :: d.members (bucket key))
      have hchain := d.length_le_pairs (bucket key)
      have hcount := h.count
      have hmember := h.memberCount (bucket key)
      have hone : (1 : UInt32).toNat = 1 := rfl
      rw [Dict.length_pairs] at hroom hchain
      simp only [List.length_cons] at htotal hroom
      apply h.replace
      · rw [UInt32.toNat_add, hmember, hone, List.length_cons, Nat.mod_eq_of_lt]
        unfold UInt32.size at hroom
        omega
      · rw [UInt32.toNat_add, hone, List.length_cons, Nat.mod_eq_of_lt]
        · omega
        · unfold UInt32.size at hroom
          omega
      · intro pair hpair
        rcases List.mem_cons.mp hpair with rfl | hpair
        · rfl
        · exact h.home _ pair hpair
      · rw [List.map_cons, List.nodup_cons]
        refine ⟨?_, (nodup_keys_iff h.home).mp h.distinct _⟩
        intro hmem
        obtain ⟨pair, hpair, hkey⟩ := List.mem_map.mp hmem
        refine hnone pair hpair ?_
        rw [hkey]

theorem Dict.Sound.del (h : d.Sound bucket) (key : CString) :
    (dictDel bucket d key).1.Sound bucket := by
  unfold dictDel
  rw [h.dictFind_eq]
  cases hfind : dictFindLoop key (d.members (bucket key)) with
  | none => exact h
  | some found =>
      obtain ⟨before, dp, behind⟩ := found
      obtain ⟨hchain, _, _⟩ := dictFindLoop_some hfind
      have hsub : List.Sublist (before ++ behind) (d.members (bucket key)) := by
        rw [hchain]
        exact List.Sublist.append_left (List.sublist_cons_self dp behind) before
      have hlength := congrArg List.length hchain
      have hcount := h.count
      have hmember := h.memberCount (bucket key)
      have htotal := d.length_le_pairs (bucket key)
      have hone : (1 : UInt32).toNat = 1 := rfl
      rw [Dict.length_pairs] at htotal
      simp only [List.length_append, List.length_cons] at hlength
      apply h.replace
      · rw [UInt32.toNat_sub_of_le, List.length_append]
        · omega
        · rw [UInt32.le_iff_toNat_le]
          omega
      · rw [UInt32.toNat_sub_of_le, List.length_append]
        · omega
        · rw [UInt32.le_iff_toNat_le]
          omega
      · intro pair hpair
        exact h.home _ pair (hsub.subset hpair)
      · exact ((nodup_keys_iff h.home).mp h.distinct _).sublist (hsub.map _)

/-- A call keeps the representation, unless it is the one too many. -/
theorem Dict.Sound.run (h : d.Sound bucket) {op : Op CString V}
    (hroom : (dictRun bucket d op).1.pairs.length < UInt32.size) :
    (dictRun bucket d op).1.Sound bucket := by
  cases op with
  | put key val => exact h.put hroom
  | get key => exact h
  | del key => exact h.del key

/-- After each call of every run in which no call leaves 2 ^ 32 pairs behind, the counters are
those of the chains, every pair is in the bucket of its key and the keys are distinct. -/
theorem dict_representation_kept {ops : List (Op CString V)}
    (hroom : Runs.Meets (Runs.total (dictRun bucket))
      (fun d op => (dictRun bucket d op).1.pairs.length < UInt32.size) (dictCreate n V) ops)
    (k : Nat) : (Runs.final (dictRun bucket) (dictCreate n V) (ops.take k)).Sound bucket := by
  apply Runs.final_invariant (Dict.Sound bucket) ?_ sound_dictCreate (hroom.take k)
  intro d op hd hop
  exact hd.run hop

end Representation

/-- Three buckets, and the first character for the hash. -/
def firstCharIndex : CString → Fin (3 : UInt32).toNat :=
  dictIndex (fun key => (key.bytes.headD 0).toUInt32) 3 (by decide)

theorem dict_representation_kept_twoKeys :
    (Runs.final (dictRun firstCharIndex) (dictCreate _ Nat) (twoKeys.take 2)).Sound
      firstCharIndex :=
  dict_representation_kept (by decide +kernel) 2

end IdAllocator
