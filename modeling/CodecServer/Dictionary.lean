import Mathlib.Data.List.AList

/-! Dictionaries with a value for each key, where every key has one to begin with: what is not there
is as good as empty. -/
namespace CodecServer

/-- A `std::map`; the order of its keys is not kept. -/
abbrev Dictionary (κ ν : Type*) := AList fun _ : κ => ν

namespace Dictionary
open List
variable {κ ν : Type*} [DecidableEq κ]

/-- `operator[]` of a map of lists. -/
def listAt (d : Dictionary κ (List ν)) (k : κ) : List ν := (d.lookup k).getD []

/-- `operator[]`, and `push_back` on it. -/
def push (d : Dictionary κ (List ν)) (k : κ) (v : ν) : Dictionary κ (List ν) :=
  d.insert k (d.listAt k ++ [v])

theorem listAt_insert (d : Dictionary κ (List ν)) (k k' : κ) (l : List ν) :
    listAt (d.insert k l) k' = if k' = k then l else d.listAt k' := by
  unfold listAt
  split_ifs with hk
  · rw [hk,AList.lookup_insert]
    rfl
  · rw [AList.lookup_insert_ne hk]

theorem listAt_push (d : Dictionary κ (List ν)) (k k' : κ) (v : ν) :
    (d.push k v).listAt k' = d.listAt k' ++ if k' = k then [v] else [] := by
  rw [push,listAt_insert]
  split_ifs with hk
  · rw [hk]
  · rw [append_nil]

/-- `operator[]` and an assignment for each pair of a key and a value. -/
def insertAll (d : Dictionary κ ν) (l : List (Sigma fun _ : κ => ν)) : Dictionary κ ν :=
  l.foldl (fun d e => d.insert e.1 e.2) d

/-- Of distinct keys, none takes the value of another. -/
theorem lookup_insertAll {l : List (Sigma fun _ : κ => ν)} (h : l.NodupKeys)
    (d : Dictionary κ ν) (k : κ) : (d.insertAll l).lookup k = (l.dlookup k).or (d.lookup k) := by
  induction l generalizing d with
  | nil => rfl
  | cons e l ih =>
    obtain ⟨hfresh,hrest⟩ := nodupKeys_cons.mp h
    change (insertAll (d.insert e.1 e.2) l).lookup k = _
    rw [ih hrest]
    by_cases hk : k = e.1
    · subst hk
      rw [dlookup_eq_none.mpr hfresh,AList.lookup_insert,dlookup_cons_eq]
      rfl
    · rw [AList.lookup_insert_ne hk,dlookup_cons_ne _ _ hk]

theorem lookup_insertAll_entries (d : Dictionary κ ν) (k : κ) :
    (insertAll ∅ d.entries).lookup k = d.lookup k := by
  rw [lookup_insertAll d.nodupKeys,AList.lookup_empty,Option.or_none]
  rfl

/-- A change of every value. -/
def mapValues (f : ν → ν) (d : Dictionary κ ν) : Dictionary κ ν :=
  ⟨d.entries.map (Sigma.map id fun _ => f),d.nodupKeys.map₂ fun _ => f⟩

theorem lookup_mapValues (f : ν → ν) (d : Dictionary κ ν) (k : κ) :
    (mapValues f d).lookup k = (d.lookup k).map f :=
  dlookup_map₂ k

theorem listAt_mapValues {f : List ν → List ν} (hf : f [] = []) (d : Dictionary κ (List ν))
    (k : κ) : listAt (mapValues f d) k = f (d.listAt k) := by
  unfold listAt
  rw [lookup_mapValues]
  cases d.lookup k with
  | none => exact hf.symm
  | some l => rfl

/-- The number of keys whose value has a property. -/
def countValues (p : ν → Bool) (d : Dictionary κ ν) : ℕ := d.entries.countP fun e => p e.2

theorem countValues_pos_iff (p : ν → Bool) (d : Dictionary κ ν) :
    0 < d.countValues p ↔ ∃ k v, d.lookup k = some v ∧ p v := by
  rw [countValues,countP_pos_iff]
  constructor
  · intro ⟨⟨k,v⟩,hmem,hp⟩
    exact ⟨k,v,AList.mem_lookup_iff.mpr hmem,hp⟩
  · intro ⟨k,v,hlookup,hp⟩
    exact ⟨⟨k,v⟩,AList.mem_lookup_iff.mp hlookup,hp⟩

theorem countValues_eq_one_iff (p : ν → Bool) (d : Dictionary κ ν) :
    d.countValues p = 1 ↔ ∃! k, ∃ v, d.lookup k = some v ∧ p v := by
  have hmem : ∀ k v, (d.lookup k = some v ∧ p v) ↔
      (⟨k,v⟩ : Sigma fun _ : κ => ν) ∈ d.entries.filter fun e => p e.2 := by
    intro k v
    rw [mem_filter,← AList.mem_lookup_iff]
    rfl
  rw [countValues,countP_eq_length_filter,length_eq_one_iff]
  constructor
  · intro ⟨⟨k,v⟩,hfilter⟩
    refine ⟨k,⟨v,(hmem k v).mpr (by rw [hfilter]; simp)⟩,fun k' ⟨v',hv'⟩ => ?_⟩
    have := (hmem k' v').mp hv'
    rw [hfilter] at this
    exact congrArg Sigma.fst (mem_singleton.mp this)
  · intro ⟨k,⟨v,hv⟩,hunique⟩
    refine ⟨⟨k,v⟩,?_⟩
    have hnodup : (d.entries.filter fun e => p e.2).Nodup := d.nodupKeys.nodup.filter _
    refine Perm.eq_singleton ((perm_ext_iff_of_nodup hnodup (nodup_singleton _)).mpr ?_)
    intro ⟨k',v'⟩
    rw [← hmem,mem_singleton]
    constructor
    · intro hv'
      obtain rfl := hunique k' ⟨v',hv'⟩
      obtain rfl := Option.some.inj (hv.1.symm.trans hv'.1)
      rfl
    · intro heq
      cases heq
      exact hv

end Dictionary
end CodecServer
