import MongoSyncAgent.LogRuns

/-!
A disk on which a logger works: it appends to files, renames them and creates new ones.

Every file has a number from its creation on, which no program sees. A file keeps its number and
its bytes, whatever its path is by then.
-/

namespace MongoSyncAgent.Rotations

open MongoSyncAgent.Runtime MongoSyncAgent.Sources MongoSyncAgent.LogRuns MongoSyncAgent.Codecs
open MongoSyncAgent.Records

structure Disk where
  fs : FS
  ident : Path → ℕ
  /-- The number of files there have been. -/
  created : ℕ

namespace Disk

def append (d : Disk) (p : Path) (node : Node) (bs : Bytes) (mtime : ℤ) : Disk :=
  { d with fs := d.fs.insert p { node with data := node.data ++ bs, mtime } }

/-- The file at `p` is moved to `q`. -/
def rename (d : Disk) (p q : Path) (node : Node) : Disk :=
  { d with
    fs := (d.fs.erase p).insert q node
    ident := fun x => if x = q then d.ident p else d.ident x }

def create (d : Disk) (p : Path) (mtime : ℤ) : Disk where
  fs := d.fs.insert p ⟨[], mtime, true⟩
  ident := fun x => if x = p then d.created else d.ident x
  created := d.created + 1

end Disk

/-- A rotation is a renaming and a creation. The files that are large enough for a fingerprint
have prefixes of their own. -/
inductive LoggerStep : Disk → Disk → Prop
  | append {d p node bs mtime} (hp : d.fs.lookup p = some node)
    (hd : DistinctPrefixes (d.append p node bs mtime).fs) :
    LoggerStep d (d.append p node bs mtime)
  | rename {d p q node} (hp : d.fs.lookup p = some node) (hq : d.fs.lookup q = none) :
    LoggerStep d (d.rename p q node)
  | create {d p mtime} (hp : d.fs.lookup p = none) : LoggerStep d (d.create p mtime)

variable {d d' d'' : Disk} {p q x : Path} {node m : Node} {bs : Bytes} {mtime : ℤ}

/-! ### Which files there are after a step -/

lemma lookup_append : (d.append p node bs mtime).fs.lookup x =
    if x = p then some { node with data := node.data ++ bs, mtime } else d.fs.lookup x := by
  split_ifs with h
  · subst h
    exact AList.lookup_insert _
  · exact AList.lookup_insert_ne h

lemma lookup_rename : (d.rename p q node).fs.lookup x =
    if x = q then some node else if x = p then none else d.fs.lookup x := by
  split_ifs with hq hp
  · subst hq
    exact AList.lookup_insert _
  · subst hp
    rw [Disk.rename, AList.lookup_insert_ne hq, AList.lookup_erase]
  · rw [Disk.rename, AList.lookup_insert_ne hq, AList.lookup_erase_ne hp]

lemma lookup_create : (d.create p mtime).fs.lookup x =
    if x = p then some ⟨[], mtime, true⟩ else d.fs.lookup x := by
  split_ifs with h
  · subst h
    exact AList.lookup_insert _
  · exact AList.lookup_insert_ne h

/-! ### Files stay -/

/-- Every file of `d` is one of `d'`, by its number, and holds at least what it held. -/
def Grows (d d' : Disk) : Prop :=
  ∀ p node, d.fs.lookup p = some node → ∃ p' node', d'.fs.lookup p' = some node' ∧
    d'.ident p' = d.ident p ∧ node.data <+: node'.data

lemma Grows.refl (d : Disk) : Grows d d := fun p node hn => ⟨p, node, hn, rfl, List.prefix_rfl⟩

lemma Grows.trans (h : Grows d d') (h' : Grows d' d'') : Grows d d'' := by
  intro p node hn
  obtain ⟨p', node', hn', hid', hpre'⟩ := h p node hn
  obtain ⟨p'', node'', hn'', hid'', hpre''⟩ := h' p' node' hn'
  exact ⟨p'', node'', hn'', hid''.trans hid', hpre'.trans hpre''⟩

lemma LoggerStep.grows (h : LoggerStep d d') : Grows d d' := by
  intro x m hm
  cases h with
  | @append p node bs mtime hp hd =>
    by_cases hx : x = p
    · subst hx
      obtain rfl := Option.some.inj (hp.symm.trans hm)
      exact ⟨x, _, by rw [lookup_append, if_pos rfl], rfl, List.prefix_append _ _⟩
    · exact ⟨x, m, by rw [lookup_append, if_neg hx, hm], rfl, List.prefix_rfl⟩
  | @rename p q node hp hq =>
    have hxq : x ≠ q := by
      rintro rfl
      rw [hq] at hm
      cases hm
    by_cases hx : x = p
    · subst hx
      obtain rfl := Option.some.inj (hp.symm.trans hm)
      exact ⟨q, node, by rw [lookup_rename, if_pos rfl], if_pos rfl, List.prefix_rfl⟩
    · exact ⟨x, m, by rw [lookup_rename, if_neg hxq, if_neg hx, hm], if_neg hxq, List.prefix_rfl⟩
  | @create p mtime hp =>
    have hx : x ≠ p := by
      rintro rfl
      rw [hp] at hm
      cases hm
    exact ⟨x, m, by rw [lookup_create, if_neg hx, hm], if_neg hx, List.prefix_rfl⟩

/-! ### Files stay apart -/

/-- Files have numbers and prefixes of their own. -/
structure DiskInv (d : Disk) : Prop where
  distinct : DistinctPrefixes d.fs
  ident_inj : ∀ p q, d.fs.lookup p ≠ none → d.fs.lookup q ≠ none → d.ident p = d.ident q → p = q
  ident_lt : ∀ p, d.fs.lookup p ≠ none → d.ident p < d.created

lemma diskInv_append (h : DiskInv d) (hp : d.fs.lookup p = some node)
    (hd : DistinctPrefixes (d.append p node bs mtime).fs) : DiskInv (d.append p node bs mtime) := by
  have hold : ∀ x, (d.append p node bs mtime).fs.lookup x ≠ none → d.fs.lookup x ≠ none := by
    intro x hx
    rw [lookup_append] at hx
    split_ifs at hx with heq
    · rw [heq, hp]
      exact Option.some_ne_none _
    · exact hx
  exact ⟨hd, fun x y hx hy => h.ident_inj x y (hold x hx) (hold y hy),
    fun x hx => h.ident_lt x (hold x hx)⟩

/-- After a renaming each path stands for one from before. -/
lemma lookup_rename_rev (hp : d.fs.lookup p = some node)
    (hm : (d.rename p q node).fs.lookup x = some m) :
    ∃ y, d.fs.lookup y = some m ∧ (d.rename p q node).ident x = d.ident y ∧
      y = if x = q then p else x := by
  rw [lookup_rename] at hm
  split_ifs at hm with h1 h2
  · obtain rfl := Option.some.inj hm
    exact ⟨p, hp, if_pos h1, by rw [if_pos h1]⟩
  · exact ⟨x, hm, if_neg h1, by rw [if_neg h1]⟩

lemma diskInv_rename (h : DiskInv d) (hp : d.fs.lookup p = some node) :
    DiskInv (d.rename p q node) := by
  -- no two paths stand for one path from before, as nothing is at `p` any more
  have hinj : ∀ x y m n, (d.rename p q node).fs.lookup x = some m →
      (d.rename p q node).fs.lookup y = some n →
      (if x = q then p else x) = (if y = q then p else y) → x = y := by
    intro x y m n hm hn heq
    rw [lookup_rename] at hm hn
    split_ifs at heq hm hn with h1 h2 h3 h4 <;> simp_all
  refine ⟨fun x y m n hm hn hml hnl heq => ?_, fun x y hx hy hid => ?_, fun x hx => ?_⟩
  · obtain ⟨x', hx', -, hxeq⟩ := lookup_rename_rev hp hm
    obtain ⟨y', hy', -, hyeq⟩ := lookup_rename_rev hp hn
    have := h.distinct x' y' m n hx' hy' hml hnl heq
    exact hinj x y m n hm hn (by rw [← hxeq, ← hyeq, this])
  · obtain ⟨m, hm⟩ := Option.ne_none_iff_exists'.mp hx
    obtain ⟨n, hn⟩ := Option.ne_none_iff_exists'.mp hy
    obtain ⟨x', hx', hxid, hxeq⟩ := lookup_rename_rev hp hm
    obtain ⟨y', hy', hyid, hyeq⟩ := lookup_rename_rev hp hn
    rw [hxid, hyid] at hid
    have := h.ident_inj x' y' (by rw [hx']; exact Option.some_ne_none _)
      (by rw [hy']; exact Option.some_ne_none _) hid
    exact hinj x y m n hm hn (by rw [← hxeq, ← hyeq, this])
  · obtain ⟨m, hm⟩ := Option.ne_none_iff_exists'.mp hx
    obtain ⟨x', hx', hxid, -⟩ := lookup_rename_rev hp hm
    rw [hxid]
    exact h.ident_lt x' (by rw [hx']; exact Option.some_ne_none _)

lemma diskInv_create (h : DiskInv d) : DiskInv (d.create p mtime) := by
  have hold : ∀ x m, (d.create p mtime).fs.lookup x = some m →
      x = p ∧ m.data = [] ∨ x ≠ p ∧ d.fs.lookup x = some m := by
    intro x m hm
    rw [lookup_create] at hm
    split_ifs at hm with heq
    · exact .inl ⟨heq, (Option.some.inj hm) ▸ rfl⟩
    · exact .inr ⟨heq, hm⟩
  have hlarge : ∀ x m, (d.create p mtime).fs.lookup x = some m → fpPrefix ≤ m.data.length →
      d.fs.lookup x = some m := by
    intro x m hm hl
    rcases hold x m hm with ⟨-, hnil⟩ | ⟨-, h⟩
    · rw [hnil] at hl
      exact absurd hl (by decide)
    · exact h
  have hident : ∀ x, (d.create p mtime).fs.lookup x ≠ none →
      x = p ∧ (d.create p mtime).ident x = d.created ∨
        x ≠ p ∧ (d.create p mtime).ident x = d.ident x ∧ d.fs.lookup x ≠ none := by
    intro x hx
    obtain ⟨m, hm⟩ := Option.ne_none_iff_exists'.mp hx
    rcases hold x m hm with ⟨heq, -⟩ | ⟨hne, hlook⟩
    · exact .inl ⟨heq, if_pos heq⟩
    · exact .inr ⟨hne, if_neg hne, by rw [hlook]; exact Option.some_ne_none _⟩
  refine ⟨fun x y m n hm hn hml hnl => ?_, fun x y hx hy hid => ?_, fun x hx => ?_⟩
  · exact h.distinct x y m n (hlarge x m hm hml) (hlarge y n hn hnl) hml hnl
  · rcases hident x hx with ⟨h1, hx'⟩ | ⟨-, hx', hxold⟩ <;>
      rcases hident y hy with ⟨h2, hy'⟩ | ⟨-, hy', hyold⟩ <;> rw [hx', hy'] at hid
    · rw [h1, h2]
    · exact absurd hid (h.ident_lt y hyold).ne'
    · exact absurd hid (h.ident_lt x hxold).ne
    · exact h.ident_inj x y hxold hyold hid
  · show (d.create p mtime).ident x < d.created + 1
    rcases hident x hx with ⟨-, hx'⟩ | ⟨-, hx', hxold⟩
    · omega
    · have := h.ident_lt x hxold
      omega

lemma LoggerStep.inv (h : LoggerStep d d') (hd : DiskInv d) : DiskInv d' := by
  cases h with
  | append hp hdist => exact diskInv_append hd hp hdist
  | rename hp hq => exact diskInv_rename hd hp
  | create hp => exact diskInv_create hd

end MongoSyncAgent.Rotations
