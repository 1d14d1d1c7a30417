import Mathlib.Algebra.BigOperators.Group.Finset.Piecewise
import ZeroFS.Commit.Watermark

/-!
# What one batch does to the shard counters

The truth about a shard is the sum of its file sizes and the number of its inodes but the root. Every partial sum of the
deltas is between two such values or the difference of two counts, so below `2^63` nothing saturates and the staged
values are true of the written store.
-/

namespace ZeroFS.Commit

open Updates List Table

/-! ## The truth -/

def committedBytes (t : Table InodeId Inode) : Nat := t.sum fun _ i => i.size

/-- Every inode but the root is counted. -/
def committedInodes (t : Table InodeId Inode) : Nat := t.count fun id _ => id ≠ 0

/-- The bytes of an inode that count for a shard. -/
def sizeIn (shard : Nat) (id : InodeId) (i : Inode) : Nat := if shardOf id = shard then i.size else 0

def bytesIn (t : Table InodeId Inode) (shard : Nat) : Nat := t.sum (sizeIn shard)

def inodesIn (t : Table InodeId Inode) (shard : Nat) : Nat := t.count fun id _ => id ≠ 0 ∧ shardOf id = shard

section

variable (t : Table InodeId Inode)
include t

theorem bytesIn_le (shard : Nat) : bytesIn t shard ≤ committedBytes t := by
  refine sum_le_sum fun id i _ => ?_
  unfold sizeIn
  split
  · exact le_rfl
  · exact Nat.zero_le _

theorem inodesIn_le (shard : Nat) : inodesIn t shard ≤ committedInodes t := by
  unfold inodesIn committedInodes Table.count
  refine sum_le_sum fun id i _ => ?_
  by_cases h : id ≠ 0 ∧ shardOf id = shard
  · rw [if_pos h, if_pos h.1]
  · rw [if_neg h]; exact Nat.zero_le _

theorem sum_shards (f : InodeId → Inode → Nat) :
    ((range statsShards).map fun shard => t.sum fun id i => if shardOf id = shard then f id i else 0).sum =
      t.sum f := by
  have hone : ∀ id c, ((range statsShards).map fun shard => if shardOf id = shard then c else 0).sum = c := by
    intro id c
    have hmem : shardOf id ∈ Finset.range statsShards := Finset.mem_range.2 (Nat.mod_lt _ (by decide))
    have hsum : ∑ shard ∈ Finset.range statsShards, (if shardOf id = shard then c else 0) = c := by
      rw [Finset.sum_ite_eq, if_pos hmem]
    exact hsum
  unfold Table.sum
  induction t.entries with
  | nil => simp
  | cons e l ih => simp only [map_cons, sum_cons]; rw [sum_map_add, ih, hone]

theorem bytesIn_sum : ((range statsShards).map (bytesIn t)).sum = committedBytes t :=
  sum_shards t fun _ i => i.size

theorem inodesIn_sum : ((range statsShards).map (inodesIn t)).sum = committedInodes t := by
  rw [committedInodes, Table.count, ← sum_shards]
  congr 1
  unfold inodesIn Table.count
  refine map_congr_left fun shard _ => sum_congr fun id i _ => ?_
  by_cases h : shardOf id = shard <;> by_cases h0 : id = 0 <;> simp [h, h0]

end

/-! ## Saturation -/

theorem saturatingAdd_eq {a b : Int} (h : -2 ^ 63 ≤ a + b) (h' : a + b < 2 ^ 63) : saturatingAdd a b = a + b := by
  unfold saturatingAdd
  omega

theorem saturatingAddSigned_eq {a b : Nat} {d : Int} (h : (a : Int) + d = b) (hb : b < 2 ^ 64) :
    saturatingAddSigned a d = b := by
  unfold saturatingAddSigned
  omega

theorem sizeDelta_eq {a b : Nat} (ha : a < 2 ^ 63) (hb : b < 2 ^ 63) : sizeDelta a b = (b : Int) - a := by
  unfold sizeDelta
  split
  · omega
  · omega

/-! ## The byte deltas -/

theorem at_put (t : ShardDeltas) (shard shard' : Nat) (e : Int × Int) :
    ShardDeltas.at (t.put shard e) shard' = if shard' = shard then e else t.at shard' := by
  unfold ShardDeltas.at
  rw [get_put]
  split <;> rfl

theorem deriveByteDeltas_eq (t : Table InodeId Inode) (updates : Table InodeId (Option Inode)) :
    deriveByteDeltas t updates = (updates.entries.map fun e => (e.1, e.2)).filterMap (imageDelta t) := by
  rw [filterMap_map]
  rfl

/-- Images keep the kind of what they replace. -/
def SameKind (t : Table InodeId Inode) (p : InodeId × Option Inode) : Prop :=
  ∀ i i', p.2 = some i → t.get p.1 = some i' → i.isFile = i'.isFile

def imageSize (v : Option Inode) : Nat := v.elim 0 Inode.size

theorem sizeIn_elim (shard : Nat) (id : InodeId) (v : Option Inode) :
    v.elim 0 (sizeIn shard id) = if shardOf id = shard then imageSize v else 0 := by
  cases v <;> simp [sizeIn, imageSize]

theorem postBytes_cases {t : Table InodeId Inode} {u : InodeId × Option Inode} (hk : SameKind t u) :
    postBytes u.2 = some (imageSize u.2) ∨ postBytes u.2 = none ∧ imageSize u.2 = committedByteUsage t u.1 := by
  obtain ⟨id, v⟩ := u
  cases v with
  | none => exact .inl rfl
  | some i =>
    cases hf : i.isFile with
    | true => exact .inl (if_pos hf)
    | false =>
      -- An image that is not a file replaces none, so neither holds bytes.
      refine .inr ⟨if_neg (by simp [hf]), ?_⟩
      show i.size = _
      rw [Inode.size_of_not_isFile hf]
      unfold committedByteUsage
      cases hget : t.get id with
      | none => rfl
      | some i' => exact (Inode.size_of_not_isFile ((hk i i' rfl hget).symm.trans hf)).symm

theorem imageDelta_cases {t : Table InodeId Inode} {u : InodeId × Option Inode} (hk : SameKind t u)
    (hpre : committedByteUsage t u.1 < 2 ^ 63) (hpost : imageSize u.2 < 2 ^ 63) :
    (imageDelta t u = none ∧ imageSize u.2 = committedByteUsage t u.1) ∨
      imageDelta t u = some (u.1, (imageSize u.2 : Int) - committedByteUsage t u.1) := by
  unfold imageDelta
  rcases postBytes_cases hk with hsome | ⟨hnone, hsame⟩
  · rw [hsome, Option.bind_some]
    dsimp only
    rw [sizeDelta_eq hpre hpost]
    split
    · exact .inr rfl
    · exact .inl ⟨rfl, by omega⟩
  · exact .inl ⟨by rw [hnone]; rfl, hsame⟩

/-- The bytes that the images of a shard hold afterwards. -/
def gained (shard : Nat) (l : List (InodeId × Option Inode)) : Nat := (l.map fun p => p.2.elim 0 (sizeIn shard p.1)).sum

/-- The bytes that they replace. -/
def replaced (t : Table InodeId Inode) (shard : Nat) (l : List (InodeId × Option Inode)) : Nat :=
  (l.map fun p => (t.get p.1).elim 0 (sizeIn shard p.1)).sum

theorem addBytes_fst (d : ShardDeltas) (id : InodeId) (n : Int) (shard : Nat) :
    ((addBytes d (id, n)).at shard).1 =
      if shardOf id = shard then saturatingAdd (d.at shard).1 n else (d.at shard).1 := by
  unfold addBytes
  rw [at_put]
  by_cases hs : shardOf id = shard
  · rw [if_pos hs.symm, if_pos hs, hs]
  · rw [if_neg (Ne.symm hs), if_neg hs]

theorem addBytes_snd (d : ShardDeltas) (id : InodeId) (n : Int) (shard : Nat) :
    ((addBytes d (id, n)).at shard).2 = (d.at shard).2 := by
  unfold addBytes
  rw [at_put]
  by_cases hs : shardOf id = shard
  · rw [if_pos hs.symm, hs]
  · rw [if_neg (Ne.symm hs)]

theorem foldl_addBytes_snd (l : List (InodeId × Int)) (d : ShardDeltas) (shard : Nat) :
    ((l.foldl addBytes d).at shard).2 = (d.at shard).2 := by
  induction l generalizing d with
  | nil => rfl
  | cons p l ih => rw [foldl_cons, ih, addBytes_snd]

/-- The byte deltas of a list of images add up without saturation: `a` and `b` are what the images before it left and
replaced. -/
theorem foldl_addBytes {t : Table InodeId Inode} {shard : Nat} {l : List (InodeId × Option Inode)}
    (hk : ∀ p ∈ l, SameKind t p) (hpre : ∀ p ∈ l, committedByteUsage t p.1 < 2 ^ 63)
    (hpost : ∀ p ∈ l, imageSize p.2 < 2 ^ 63) {a b : Nat} (ha : a + gained shard l < 2 ^ 63)
    (hb : b + replaced t shard l < 2 ^ 63) {d : ShardDeltas} (hd : (d.at shard).1 = (a : Int) - b) :
    (((l.filterMap (imageDelta t)).foldl addBytes d).at shard).1 =
      ((a + gained shard l : Nat) : Int) - (b + replaced t shard l : Nat) := by
  induction l generalizing a b d with
  | nil => exact hd
  | cons p l ih =>
    obtain ⟨hkp, hkl⟩ := forall_mem_cons.1 hk
    obtain ⟨hprep, hprel⟩ := forall_mem_cons.1 hpre
    obtain ⟨hpostp, hpostl⟩ := forall_mem_cons.1 hpost
    have hg : gained shard (p :: l) = (if shardOf p.1 = shard then imageSize p.2 else 0) + gained shard l := by
      unfold gained
      rw [map_cons, sum_cons, sizeIn_elim]
    have hr : replaced t shard (p :: l) = (if shardOf p.1 = shard then committedByteUsage t p.1 else 0) +
        replaced t shard l := by
      unfold replaced
      rw [map_cons, sum_cons, sizeIn_elim]
      rfl
    rw [hg] at ha ⊢
    rw [hr] at hb ⊢
    rw [← Nat.add_assoc] at ha hb ⊢
    rw [← Nat.add_assoc]
    rcases imageDelta_cases hkp hprep hpostp with ⟨hnone, hsame⟩ | hsome
    · rw [filterMap_cons_none hnone]
      refine ih hkl hprel hpostl ha hb ?_
      rw [hd, hsame]
      omega
    rw [filterMap_cons_some hsome, foldl_cons]
    refine ih hkl hprel hpostl ha hb ?_
    rw [addBytes_fst, hd]
    by_cases hs : shardOf p.1 = shard
    · rw [if_pos hs, if_pos hs, if_pos hs] at *; rw [saturatingAdd_eq] <;> omega
    · rw [if_neg hs, if_neg hs, if_neg hs]; omega

/-! ## The inode deltas -/

def changesOf (batch : List Request) : List Change := batch.flatMap Request.changes

def applyChanges (t : Table InodeId Inode) (cs : List Change) : Table InodeId Inode :=
  t.setAll (cs.map fun c => (c.id, c.image))

theorem applyChanges_cons (t : Table InodeId Inode) (c : Change) (cs : List Change) :
    applyChanges t (c :: cs) = applyChanges (t.set c.id c.image) cs := rfl

/-- The change finds what it expects: a new inode is absent, any other is there. -/
def Fits (t : Table InodeId Inode) : Change → Prop
  | .create id _ => t.get id = none ∧ id ≠ 0
  | .save id _ => t.get id ≠ none
  | .delete id => t.get id ≠ none ∧ id ≠ 0

def FitsAll (t : Table InodeId Inode) : List Change → Prop
  | [] => True
  | c :: cs => Fits t c ∧ FitsAll (t.set c.id c.image) cs

/-- The totals stay below `2^63` through the changes. -/
def within (t : Table InodeId Inode) : List Change → Bool
  | [] => committedBytes t < 2 ^ 63 && committedInodes t < 2 ^ 63
  | c :: cs => committedBytes t < 2 ^ 63 && committedInodes t < 2 ^ 63 && within (t.set c.id c.image) cs

section

variable {t : Table InodeId Inode} {cs : List Change}

theorem within_head (h : within t cs = true) :
    committedBytes t < 2 ^ 63 ∧ committedInodes t < 2 ^ 63 := by
  cases cs with
  | nil => simpa [within] using h
  | cons c cs => simp only [within, Bool.and_eq_true, decide_eq_true_eq] at h; exact h.1

theorem within_last (h : within t cs = true) :
    committedBytes (applyChanges t cs) < 2 ^ 63 ∧ committedInodes (applyChanges t cs) < 2 ^ 63 := by
  induction cs generalizing t with
  | nil => exact within_head h
  | cons c cs ih => simp only [within, Bool.and_eq_true] at h; exact ih h.2

theorem inodesIn_set {c : Change} (h : Fits t c) (shard : Nat) :
    (inodesIn (t.set c.id c.image) shard : Int) = inodesIn t shard + if shardOf c.id = shard then c.inodes else 0 := by
  have hsum : ∀ id (v : Option Inode), inodesIn (t.set id v) shard + (t.get id).elim 0
    (fun _ => if id ≠ 0 ∧ shardOf id = shard then 1 else 0) = inodesIn t shard + v.elim 0
    (fun _ => if id ≠ 0 ∧ shardOf id = shard then 1 else 0) :=
    fun id v => sum_set (fun id (_ : Inode) => if id ≠ 0 ∧ shardOf id = shard then 1 else 0) t id v
  cases c with
  | create id inode =>
    obtain ⟨hnone, h0⟩ := h
    have hset := hsum id (some inode)
    rw [hnone, Option.elim_none, Option.elim_some] at hset
    show (inodesIn (t.set id (some inode)) shard : Int) = inodesIn t shard + if shardOf id = shard then 1 else 0
    by_cases hs : shardOf id = shard
    · rw [if_pos ⟨h0, hs⟩] at hset; omega
    · rw [if_neg fun hc => hs hc.2] at hset; omega
  | save id inode =>
    obtain ⟨i, hi⟩ := Option.ne_none_iff_exists'.1 h
    have hset := hsum id (some inode)
    rw [hi, Option.elim_some, Option.elim_some] at hset
    show (inodesIn (t.set id (some inode)) shard : Int) = inodesIn t shard + if shardOf id = shard then 0 else 0
    omega
  | delete id =>
    obtain ⟨hsome, h0⟩ := h
    obtain ⟨i, hi⟩ := Option.ne_none_iff_exists'.1 hsome
    have hset := hsum id none
    rw [hi, Option.elim_some, Option.elim_none] at hset
    show (inodesIn (t.set id none) shard : Int) = inodesIn t shard + if shardOf id = shard then -1 else 0
    by_cases hs : shardOf id = shard
    · rw [if_pos ⟨h0, hs⟩] at hset; omega
    · rw [if_neg fun hc => hs hc.2] at hset; omega

end

/-- What a change adds to the deltas of a shard. -/
def countDelta (shard : Nat) (e : Int) (c : Change) : Int :=
  if shardOf c.id = shard ∧ c.inodes ≠ 0 then saturatingAdd e c.inodes else e

/-- Changes that fit, within the bounds, add up without saturation. -/
theorem foldl_countDelta {cs : List Change} {t : Table InodeId Inode} (hfit : FitsAll t cs) (hw : within t cs = true)
    (shard : Nat) {n : Nat} (hn : n < 2 ^ 63) :
    cs.foldl (countDelta shard) ((inodesIn t shard : Int) - n) = (inodesIn (applyChanges t cs) shard : Int) - n := by
  induction cs generalizing t with
  | nil => rfl
  | cons c cs ih =>
    obtain ⟨hc, hcs⟩ := hfit
    simp only [within, Bool.and_eq_true] at hw
    rw [foldl_cons, applyChanges_cons, ← ih hcs hw.2]
    congr 1
    have hset := inodesIn_set hc shard
    have hle := inodesIn_le (t.set c.id c.image) shard
    have hlt := (within_head hw.2).2
    unfold countDelta
    split
    · rw [saturatingAdd_eq] <;> omega
    rename_i hs
    by_cases hsh : shardOf c.id = shard
    · have hz : c.inodes = 0 := by
        by_contra hne
        exact hs ⟨hsh, hne⟩
      omega
    · omega

theorem stage_stats (txn : Transaction) (c : Change) :
    (c.stage txn).statsDeltas = txn.statsDeltas ++ if c.inodes ≠ 0 then [⟨c.id, 0, c.inodes⟩] else [] := by
  cases c with
  | create id inode => simp [Change.stage, Transaction.addInodeCountDelta, Transaction.save, Change.inodes, Change.id]
  | save id inode => simp [Change.stage, Transaction.save, Change.inodes]
  | delete id => simp [Change.stage, Transaction.addInodeCountDelta, Transaction.delete, Change.inodes, Change.id]

theorem txn_stats (r : Request) :
    r.txn.statsDeltas = r.changes.flatMap fun c => if c.inodes ≠ 0 then [⟨c.id, 0, c.inodes⟩] else [] :=
  foldl_stage stage_stats r.changes _

theorem addStats_at (d : ShardDeltas) (x : StatsDelta) (shard : Nat) : (addStats d x).at shard =
    if shardOf x.inodeId = shard then (saturatingAdd (d.at shard).1 x.bytes, saturatingAdd (d.at shard).2 x.inodes)
    else d.at shard := by
  unfold addStats
  rw [at_put]
  by_cases hs : shardOf x.inodeId = shard
  · rw [if_pos hs.symm, if_pos hs, hs]
  · rw [if_neg (Ne.symm hs), if_neg hs]

/-- The deltas that ride along: no bytes, and the inodes of the changes. -/
theorem foldl_addStats (cs : List Change) (shard : Nat) {d : ShardDeltas} (hd : (d.at shard).1 = 0) :
    ((cs.flatMap fun c => if c.inodes ≠ 0 then [(⟨c.id, 0, c.inodes⟩ : StatsDelta)] else []).foldl addStats d).at
      shard = (0, cs.foldl (countDelta shard) (d.at shard).2) := by
  induction cs generalizing d with
  | nil => exact Prod.ext hd rfl
  | cons c cs ih =>
    rw [flatMap_cons, foldl_append, foldl_cons]
    by_cases hc : c.inodes ≠ 0
    · rw [if_pos hc, foldl_cons, foldl_nil, ih]
      · rw [addStats_at]
        unfold countDelta
        by_cases hs : shardOf c.id = shard
        · rw [if_pos hs, if_pos ⟨hs, hc⟩]
        · rw [if_neg hs, if_neg fun h => hs h.1]
      · rw [addStats_at]
        split
        · rw [hd]; rfl
        · exact hd
    · rw [if_neg hc, foldl_nil, ih hd]; unfold countDelta; rw [if_neg fun h => hc h.2]

theorem mergeStats_at (batch : List Request) (shard : Nat) :
    (mergeStats batch).at shard = (0, (changesOf batch).foldl (countDelta shard) 0) := by
  have hlist : batch.flatMap (fun r => r.txn.statsDeltas) =
      (changesOf batch).flatMap fun c => if c.inodes ≠ 0 then [⟨c.id, 0, c.inodes⟩] else [] := by
    rw [changesOf, flatMap_assoc]
    exact flatMap_congr fun r _ => txn_stats r
  unfold mergeStats
  rw [hlist]
  exact foldl_addStats _ shard rfl

/-! ## The written store -/

theorem sum_ext {t t' : Table InodeId Inode} (h : ∀ id, t.get id = t'.get id) (f : InodeId → Inode → Nat) :
    t.sum f = t'.sum f := by
  have hperm : t.entries.Perm t'.entries := by
    refine lookup_ext t.nodupKeys t'.nodupKeys fun id i => ?_
    have := h id
    unfold Table.get AList.lookup at this
    rw [this]
  exact (hperm.map _).sum_eq

/-- The merged images of a batch, as the store writes them. -/
def images (batch : List Request) : List (InodeId × Option Inode) :=
  (mergeUpdates batch).entries.map fun e => (e.1, e.2)

theorem images_nodup (batch : List Request) : ((images batch).map Prod.fst).Nodup := by
  unfold images
  rw [map_map]
  exact (mergeUpdates batch).nodupKeys

theorem mem_images {batch : List Request} {p : InodeId × Option Inode} :
    p ∈ images batch ↔ (mergeUpdates batch).get p.1 = some p.2 := by
  unfold images
  rw [mem_map, ← mem_entries]
  constructor
  · rintro ⟨⟨k, v⟩, he, rfl⟩; exact he
  · exact fun he => ⟨_, he, rfl⟩

/-- Writing the merged images is making the changes one after the other. -/
theorem get_setAll_images (t : Table InodeId Inode) (batch : List Request) (id : InodeId) :
    (t.setAll (images batch)).get id = (applyChanges t (changesOf batch)).get id := by
  have hget := get_write ⟨t, none, empty⟩ ⟨batch, mergeUpdates batch, none, []⟩ id
  refine hget.trans ?_
  unfold applyChanges
  rw [get_setAll, get_mergeUpdates]
  congr 2
  rw [changesOf, map_flatMap]

/-- The deltas that the worker stages for a batch. -/
def shardDeltas (t : Table InodeId Inode) (batch : List Request) : ShardDeltas :=
  (deriveByteDeltas t (mergeUpdates batch)).foldl addBytes (mergeStats batch)

section

variable {t : Table InodeId Inode} {batch : List Request}

/-- **The byte deltas.** They are exact when what the batch replaces and what it leaves are below `2^63`. -/
theorem shardDeltas_bytes (hk : ∀ p ∈ images batch, SameKind t p)
    (hpre : committedBytes t < 2 ^ 63) (hpost : committedBytes (t.setAll (images batch)) < 2 ^ 63) (shard : Nat) :
    ((shardDeltas t batch).at shard).1 = (bytesIn (t.setAll (images batch)) shard : Int) - bytesIn t shard := by
  have hget : ∀ p ∈ images batch, (t.setAll (images batch)).get p.1 = p.2 := by
    intro p hp
    rw [get_setAll, newest_of_mem (images_nodup batch) hp]
    rfl
  have hsum : bytesIn (t.setAll (images batch)) shard + replaced t shard (images batch) =
      bytesIn t shard + gained shard (images batch) := sum_setAll (sizeIn shard) (images_nodup batch) t
  have hleft : bytesIn (t.setAll (images batch)) shard = _ :=
    sum_split (sizeIn shard) (t.setAll (images batch)) (images_nodup batch)
  rw [map_map, show ((images batch).map ((fun id => ((t.setAll (images batch)).get id).elim 0 (sizeIn shard id)) ∘
    Prod.fst)).sum = gained shard (images batch) by
      unfold gained
      congr 1
      refine map_congr_left fun p hp => ?_
      show ((t.setAll (images batch)).get p.1).elim 0 _ = _
      rw [hget p hp]] at hleft
  have hbefore := bytesIn_le t shard
  have hafter := bytesIn_le (t.setAll (images batch)) shard
  have hsize : ∀ {t' : Table InodeId Inode} {id : InodeId}, committedBytes t' < 2 ^ 63 →
      imageSize (t'.get id) < 2 ^ 63 := by
    intro t' id hlt
    cases hid : t'.get id with
    | none => exact Nat.two_pow_pos 63
    | some i => exact Nat.lt_of_le_of_lt (le_sum (fun _ (i : Inode) => i.size) hid) hlt
  unfold shardDeltas
  rw [deriveByteDeltas_eq]
  have hstart : ((mergeStats batch).at shard).1 = ((0 : Nat) : Int) - (0 : Nat) := by
    rw [mergeStats_at]
    rfl
  have hfold := foldl_addBytes hk (fun p _ => hsize hpre) (fun p hp => by rw [← hget p hp]; exact hsize hpost)
    (by omega) (by omega)
    hstart
  refine hfold.trans ?_
  omega

/-- **The inode deltas.** They are exact when every change finds what it expects and the totals stay below `2^63`. -/
theorem shardDeltas_inodes (hfit : FitsAll t (changesOf batch))
    (hw : within t (changesOf batch) = true) (shard : Nat) :
    ((shardDeltas t batch).at shard).2 = (inodesIn (t.setAll (images batch)) shard : Int) - inodesIn t shard := by
  unfold shardDeltas
  rw [foldl_addBytes_snd, mergeStats_at]
  have hn : inodesIn t shard < 2 ^ 63 := Nat.lt_of_le_of_lt (inodesIn_le t shard) (within_head hw).2
  have hfold := foldl_countDelta hfit hw shard hn
  rw [Int.sub_self] at hfold
  have hsame : inodesIn (t.setAll (images batch)) shard = inodesIn (applyChanges t (changesOf batch)) shard :=
    sum_ext (get_setAll_images t batch) fun id _ => if id ≠ 0 ∧ shardOf id = shard then 1 else 0
  rw [hsame]
  exact hfold

theorem putAll_at (shards stats : Shards) (deltas : ShardDeltas) (shard : Nat) :
    (shards.putAll (deltas.entries.map fun e => (e.1, stageDelta stats e.1 e.2.1 e.2.2))).at shard =
      match deltas.get shard with
      | some e => stageDelta stats shard e.1 e.2
      | none => shards.at shard := by
  unfold Shards.putAll Shards.at
  rw [get_foldl_put, newest_entries deltas fun k e => stageDelta stats k e.1 e.2]
  cases deltas.get shard <;> rfl

end

/-- The stored byte counters are the truth about the stored inodes. -/
def BytesRight (db : Db) : Prop := ∀ shard, (db.shards.at shard).usedBytes = bytesIn db.inodes shard

def InodesRight (db : Db) : Prop := ∀ shard, (db.shards.at shard).usedInodes = inodesIn db.inodes shard

/-- The write of a batch as the worker stages it. -/
structure StagedFor (db : Db) (stats : Shards) (w : Write) : Prop where
  updates : w.updates = mergeUpdates w.requests
  shards : w.shards = (shardDeltas db.inodes w.requests).entries.map fun e => (e.1, stageDelta stats e.1 e.2.1 e.2.2)

variable {db : Db} {stats : Shards} {w : Write}

theorem StagedFor.inodes (h : StagedFor db stats w) :
    (db.write w).inodes = db.inodes.setAll (images w.requests) := by
  unfold images
  rw [← h.updates]
  rfl

theorem StagedFor.shard_at (h : StagedFor db stats w)
    (hstats : ∀ shard, stats.at shard = db.shards.at shard) (shard : Nat) :
    ((shardDeltas db.inodes w.requests).at shard = (0, 0) ∧ (db.write w).shards.at shard = db.shards.at shard) ∨
      (db.write w).shards.at shard = stageDelta db.shards shard ((shardDeltas db.inodes w.requests).at shard).1
        ((shardDeltas db.inodes w.requests).at shard).2 := by
  have hput : (db.write w).shards.at shard = (db.shards.putAll w.shards).at shard := rfl
  rw [hput, h.shards, putAll_at]
  unfold ShardDeltas.at
  cases hget : (shardDeltas db.inodes w.requests).get shard with
  | none => exact .inl ⟨rfl, rfl⟩
  | some e =>
    refine .inr ?_
    unfold stageDelta
    rw [hstats]
    rfl

theorem committedBytes_images (t : Table InodeId Inode) (batch : List Request) :
    committedBytes (t.setAll (images batch)) = committedBytes (applyChanges t (changesOf batch)) :=
  sum_ext (get_setAll_images t batch) fun _ i => i.size

theorem BytesRight.write (hr : BytesRight db) (h : StagedFor db stats w)
    (hstats : ∀ shard, stats.at shard = db.shards.at shard) (hk : ∀ p ∈ images w.requests, SameKind db.inodes p)
    (hw : within db.inodes (changesOf w.requests) = true) : BytesRight (db.write w) := by
  intro shard
  have hpost := (within_last hw).1
  rw [← committedBytes_images] at hpost
  have hdelta := shardDeltas_bytes hk (within_head hw).1 hpost shard
  have hle := bytesIn_le (db.inodes.setAll (images w.requests)) shard
  rw [h.inodes]
  rcases h.shard_at hstats shard with ⟨hzero, heq⟩ | heq
  · rw [hzero] at hdelta; rw [heq, hr shard]; omega
  · rw [heq]
    refine saturatingAddSigned_eq ?_ (by omega)
    rw [hdelta, hr shard]
    omega

theorem InodesRight.write (hr : InodesRight db) (h : StagedFor db stats w)
    (hstats : ∀ shard, stats.at shard = db.shards.at shard) (hfit : FitsAll db.inodes (changesOf w.requests))
    (hw : within db.inodes (changesOf w.requests) = true) : InodesRight (db.write w) := by
  intro shard
  have hdelta := shardDeltas_inodes hfit hw shard
  have hsame : committedInodes (db.inodes.setAll (images w.requests)) =
      committedInodes (applyChanges db.inodes (changesOf w.requests)) :=
    sum_ext (get_setAll_images _ _) fun id _ => if id ≠ 0 then 1 else 0
  have hle := inodesIn_le (db.inodes.setAll (images w.requests)) shard
  have hlt := (within_last hw).2
  rw [h.inodes]
  rcases h.shard_at hstats shard with ⟨hzero, heq⟩ | heq
  · rw [hzero] at hdelta; rw [heq, hr shard]; omega
  · rw [heq]
    refine saturatingAddSigned_eq ?_ (by omega)
    rw [hdelta, hr shard]
    omega

end ZeroFS.Commit
