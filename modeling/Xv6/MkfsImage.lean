import Xv6.MkfsLayout

namespace Xv6.Mkfs

open LittleEndian IndexTree Function List Option

section Bitmap

theorem bitmap_succ (n : Nat) :
    bitmap (n + 1) = update (bitmap n) (n / 8) (UInt8.ofNat ((bitmap n (n / 8)).toNat ||| 2 ^ (n % 8))) := by
  rw [bitmap, range_succ, foldl_append]
  rfl

theorem testBit_setBit (v : UInt8) {i : Nat} (hi : i < 8) (j : Nat) :
    (UInt8.ofNat (v.toNat ||| 2 ^ i)).toNat.testBit j = (v.toNat.testBit j || decide (i = j)) := by
  have hlt : v.toNat ||| 2 ^ i < 2 ^ 8 := Nat.or_lt_two_pow v.toNat_lt (Nat.pow_lt_pow_right (by decide) hi)
  rw [UInt8.toNat_ofNat_of_lt' hlt, Nat.testBit_or, Nat.testBit_two_pow]

theorem bitmap_testBit (used i : Nat) : (bitmap used (i / 8)).toNat.testBit (i % 8) = decide (i < used) := by
  induction used with
  | zero => simp [bitmap]
  | succ n ih =>
    rw [bitmap_succ, update_apply]
    split
    next hbyte =>
      rw [testBit_setBit _ (Nat.mod_lt _ (by decide)), ← hbyte, ih]
      grind
    next hbyte =>
      rw [ih]
      grind

end Bitmap

section Building

def used (content : Nat → List UInt8) : Nat → Nat
  | 0 => blocksFor nDirect nIndirect (blocks (content 0).length)
  | n + 1 => used content n + blocksFor nDirect nIndirect (blocks (content (n + 1)).length)

variable {content content' : Nat → List UInt8} {n : Nat} {im im' : Image} {p : List UInt8}

theorem used_mono {m : Nat} (hmn : m ≤ n) (h : ∀ i, (content i).length ≤ (content' i).length) :
    used content m ≤ used content' n := by
  induction hmn with
  | refl =>
    induction m with
    | zero => exact blocksFor_mono (blocks_mono (h 0))
    | succ m ih => exact Nat.add_le_add ih (blocksFor_mono (blocks_mono (h (m + 1))))
  | step _ ih => exact Nat.le_trans ih (Nat.le_add_right ..)

theorem used_congr (h : ∀ i ≤ n, content i = content' i) : used content n = used content' n := by
  induction n with
  | zero => rw [used, used, h 0 (Nat.le_refl _)]
  | succ n ih => rw [used, used, ih fun i hi => h i (by omega), h (n + 1) (Nat.le_refl _)]

variable {i : Nat}

theorem used_update (content : Nat → List UInt8) (hi : i ≤ n) (c : List UInt8) :
    used (update content i c) n + blocksFor nDirect nIndirect (blocks (content i).length) =
      used content n + blocksFor nDirect nIndirect (blocks c.length) := by
  induction n with
  | zero =>
    obtain rfl : i = 0 := by omega
    rw [used, used, update_self, Nat.add_comm]
  | succ n ih =>
    rw [used, used]
    by_cases heq : i = n + 1
    · subst heq
      have hsame : used (update content (n + 1) c) n = used content n :=
        used_congr fun j hj => update_of_ne (by omega) ..
      rw [hsame, update_self]
      omega
    · have hrest := ih (by omega)
      rw [update_of_ne (Ne.symm heq)]
      omega

def Image.at (im : Image) (i : Nat) (p : Pos) : Nat := (store im (im.inodes i)).at nDirect p

/-- The inodes up to n hold their contents, in different blocks, which are all
that have been used after the metadata. -/
structure Built (content : Nat → List UInt8) (n : Nat) (im : Image) : Prop where
  size : im.size = fsSize
  next : im.freeinode = n + 1
  unmade : ∀ i, i = 0 ∨ n < i → content i = []
  holds : ∀ i, 1 ≤ i → i ≤ n → Holds (store im (im.inodes i)) (content i)
  sizes : ∀ i, 1 ≤ i → i ≤ n → (im.inodes i).size = (content i).length
  apart : ∀ i j p q, 1 ≤ i → i ≤ n → 1 ≤ j → j ≤ n → i ≠ j → p.Valid nDirect nIndirect → q.Valid nDirect nIndirect →
    im.at i p ≠ 0 → im.at i p ≠ im.at j q
  low : ∀ i p, 1 ≤ i → i ≤ n → p.Valid nDirect nIndirect → im.at i p ≠ 0 → nMeta ≤ im.at i p
  covers : ∀ b, nMeta ≤ b → b < im.freeblock → ∃ i p, 1 ≤ i ∧ i ≤ n ∧ p.Valid nDirect nIndirect ∧ im.at i p = b
  free : im.freeblock = nMeta + used content n
  zero : ∀ b, im.freeblock ≤ b → ∀ k, im.blocks b k = 0

theorem blocksFor_nil : blocksFor nDirect nIndirect (blocks ([] : List UInt8).length) = 0 := rfl

theorem Built.ialloc (h : Built content n im) (hend : im.freeblock ≤ fsSize) (type : Nat) :
    (Mkfs.ialloc im type).1 = n + 1 ∧ Built content (n + 1) (Mkfs.ialloc im type).2 := by
  refine ⟨h.next, ?_⟩
  have hpos : 0 < im.freeblock := by
    rw [h.free]
    exact Nat.add_pos_left (by decide) _
  have hold (i : Nat) (hi : i ≤ n) : (Mkfs.ialloc im type).2.inodes i = im.inodes i :=
    update_of_ne (by rw [h.next]; omega) ..
  have hnew : (Mkfs.ialloc im type).2.inodes (n + 1) = ⟨type, 0, 0, 1, 0, fun _ => 0⟩ := by
    change update _ im.freeinode _ (n + 1) = _
    rw [h.next, update_self]
  have hnil : content (n + 1) = [] := h.unmade _ (.inr (Nat.lt_succ_self n))
  have hholds : Holds (store (Mkfs.ialloc im type).2 ((Mkfs.ialloc im type).2.inodes (n + 1))) [] := by
    rw [hnew]
    exact holds_nil (fun _ => rfl) hpos (Nat.lt_of_le_of_lt hend (by decide)) h.zero
  have hat (i : Nat) (hi : i ≤ n) (q : Pos) : (Mkfs.ialloc im type).2.at i q = im.at i q := by
    rw [Image.at, hold i hi]
    rfl
  have hempty (q : Pos) (hq : q.Valid nDirect nIndirect) : (Mkfs.ialloc im type).2.at (n + 1) q = 0 := by
    by_contra hne
    have hneed := (hholds.exact q hq).mp hne
    cases q with
    | direct | single | indirect | double | leaf | entry => exact absurd hneed (Nat.not_lt_zero _)
  have hcases (i : Nat) (hi : i ≤ n + 1) : i ≤ n ∨ i = n + 1 := by omega
  constructor
  case size => exact h.size
  case next => exact congrArg (· + 1) h.next
  case unmade => exact fun i hi => h.unmade i (by omega)
  case holds =>
    intro i h1 hi
    rcases hcases i hi with hi | rfl
    · rw [hold i hi]
      exact h.holds i h1 hi
    · rw [hnil]
      exact hholds
  case sizes =>
    intro i h1 hi
    rcases hcases i hi with hi | rfl
    · rw [hold i hi]
      exact h.sizes i h1 hi
    · rw [hnil, hnew]
      rfl
  case apart =>
    intro i j p q hi1 hi hj1 hj hij hp hq hne
    rcases hcases i hi with hi | rfl
    · rw [hat i hi] at hne ⊢
      rcases hcases j hj with hj | rfl
      · rw [hat j hj]
        exact h.apart i j p q hi1 hi hj1 hj hij hp hq hne
      · rw [hempty q hq]
        exact hne
    · exact absurd (hempty p hp) hne
  case low =>
    intro i p h1 hi hp hne
    rcases hcases i hi with hi | rfl
    · rw [hat i hi] at hne ⊢
      exact h.low i p h1 hi hp hne
    · exact absurd (hempty p hp) hne
  case covers =>
    intro b hb hlt
    obtain ⟨i, p, h1, hi, hp, heq⟩ := h.covers b hb hlt
    exact ⟨i, p, h1, by omega, hp, by rw [hat i hi, heq]⟩
  case free =>
    rw [used, hnil, blocksFor_nil]
    exact h.free
  case zero => exact h.zero

theorem length_le_of_used (hi : i ≤ n) (hend : nMeta + used content n ≤ fsSize) :
    (content i).length ≤ fsSize * blockSize := by
  have hupdate := used_update content hi []
  rw [blocksFor_nil] at hupdate
  have hle := le_blocksFor (D := nDirect) (N := nIndirect) (blocks (content i).length)
  have hblocks : blocks (content i).length ≤ fsSize := by omega
  unfold blocks at hblocks
  unfold blockSize at *
  omega

theorem Built.iappend (h : Built content n im) (h1 : 1 ≤ i) (hi : i ≤ n)
    (hend : nMeta + used (update content i (content i ++ p)) n ≤ fsSize) :
    ∃ im', Mkfs.iappend im i p = some im' ∧ Built (update content i (content i ++ p)) n im' := by
  have hupdate := used_update content hi (content i ++ p)
  have hfree := h.free
  have hlength : (content i ++ p).length ≤ fsSize * blockSize := by
    have hle := length_le_of_used hi hend
    rwa [update_self] at hle
  have hmono : used content n ≤ used (update content i (content i ++ p)) n := used_mono (Nat.le_refl _) fun j => by
    rw [update_apply]
    split
    next heq =>
      rw [heq, length_append]
      exact Nat.le_add_right ..
    next => exact Nat.le_refl _
  obtain ⟨s, happend, hholds, hgrows, hused⟩ := iappend_spec (p := p) (h.holds i h1 hi) (h.sizes i h1 hi)
    (by rw [← length_append]; exact Nat.le_trans hlength (by decide)) (by rw [h.size]; omega) (by rw [h.size]; decide)
  refine ⟨_, happend, ?_⟩
  generalize hdin : ({ (im.inodes i).with s with size := (content i ++ p).length } : Dinode) = din
  have haddrs : din.addrs = s.addrs := hdin ▸ rfl
  have hsize : din.size = (content i ++ p).length := hdin ▸ rfl
  have hself : (winode (im.with s) i din).inodes i = din := update_self ..
  have hother (j : Nat) (hj : j ≠ i) : (winode (im.with s) i din).inodes j = im.inodes j := update_of_ne hj ..
  have hblocks (j : Nat) (hj1 : 1 ≤ j) (hj : j ≤ n) (hji : j ≠ i) (q : Pos) (hq : q.Valid nDirect nIndirect)
      (hne : im.at j q ≠ 0) : s.disk (im.at j q) = im.blocks (im.at j q) :=
    hgrows.others hne ((h.holds j hj1 hj).tree.below q hq) fun q' hq' heq =>
      h.apart j i q q' hj1 hj h1 hi hji hq hq' hne heq.symm
  have hframe (j : Nat) (hj1 : 1 ≤ j) (hj : j ≤ n) (hji : j ≠ i) :=
    (h.holds j hj1 hj).frame (hblocks j hj1 hj hji) hgrows.free hholds.tree.zero hholds.tree.word
      (Nat.le_trans (length_le_of_used hj (by omega)) (by decide))
  have hat (j : Nat) (hj1 : 1 ≤ j) (hj : j ≤ n) (hji : j ≠ i) (q : Pos) (hq : q.Valid nDirect nIndirect) :
      (winode (im.with s) i din).at j q = im.at j q := by
    rw [Image.at, hother j hji]
    exact (hframe j hj1 hj hji).2 q hq
  have hatself (q : Pos) : (winode (im.with s) i din).at i q = s.at nDirect q := by
    rw [Image.at, hself, store, haddrs]
    rfl
  have hnew (q : Pos) (hq : q.Valid nDirect nIndirect) (hne : s.at nDirect q ≠ 0) :
      (im.at i q ≠ 0 ∧ s.at nDirect q = im.at i q) ∨ im.freeblock ≤ s.at nDirect q := by
    by_cases hold : im.at i q = 0
    · exact .inr (hgrows.fresh q hq hold hne)
    · exact .inl ⟨hold, hgrows.keeps q hq hold⟩
  constructor
  case size => exact h.size
  case next => exact h.next
  case unmade =>
    intro j hj
    rw [update_of_ne (by omega)]
    exact h.unmade j hj
  case holds =>
    intro j hj1 hj
    by_cases hji : j = i
    · subst hji
      rw [hself, update_self, store, haddrs]
      exact hholds
    · rw [hother j hji, update_of_ne hji]
      exact (hframe j hj1 hj hji).1
  case sizes =>
    intro j hj1 hj
    by_cases hji : j = i
    · subst hji
      rw [hself, update_self, hsize]
    · rw [hother j hji, update_of_ne hji]
      exact h.sizes j hj1 hj
  case apart =>
    intro j k q q' hj1 hj hk1 hk hjk hq hq' hne
    by_cases hji : j = i
    · subst hji
      rw [hatself] at hne ⊢
      rw [hat k hk1 hk (Ne.symm hjk) q' hq']
      rcases hnew q hq hne with ⟨hold, heq⟩ | hge
      · rw [heq]
        exact h.apart j k q q' hj1 hj hk1 hk hjk hq hq' hold
      · have hbelow : im.at k q' < im.freeblock := (h.holds k hk1 hk).tree.below q' hq'
        omega
    · rw [hat j hj1 hj hji q hq] at hne ⊢
      by_cases hki : k = i
      · subst hki
        rw [hatself]
        intro heq
        have hbelow : im.at j q < im.freeblock := (h.holds j hj1 hj).tree.below q hq
        rcases hnew q' hq' (heq ▸ hne) with ⟨hold, heq'⟩ | hge
        · exact h.apart j k q q' hj1 hj hk1 hk hjk hq hq' hne (heq.trans heq')
        · omega
      · rw [hat k hk1 hk hki q' hq']
        exact h.apart j k q q' hj1 hj hk1 hk hjk hq hq' hne
  case low =>
    intro j q hj1 hj hq hne
    by_cases hji : j = i
    · subst hji
      rw [hatself] at hne ⊢
      rcases hnew q hq hne with ⟨hold, heq⟩ | hge
      · rw [heq]
        exact h.low j q hj1 hj hq hold
      · omega
    · rw [hat j hj1 hj hji q hq] at hne ⊢
      exact h.low j q hj1 hj hq hne
  case covers =>
    intro b hb hlt
    by_cases hold : b < im.freeblock
    · obtain ⟨j, q, hj1, hj, hq, heq⟩ := h.covers b hb hold
      refine ⟨j, q, hj1, hj, hq, ?_⟩
      by_cases hji : j = i
      · subst hji
        rw [hatself, ← heq]
        exact hgrows.keeps q hq (fun hzero => by
          change im.at j q = 0 at hzero
          have hmeta : 0 < nMeta := by decide
          omega)
      · rw [hat j hj1 hj hji q hq, heq]
    · obtain ⟨q, hq, heq⟩ := hgrows.covers b (Nat.le_of_not_lt hold) hlt
      exact ⟨i, q, h1, hi, hq, by rw [hatself, heq]⟩
  case free =>
    change s.free = _
    omega
  case zero => exact hholds.tree.zero

theorem Built.iappends (chunks : List (List UInt8)) (h : Built content n im) (h1 : 1 ≤ i) (hi : i ≤ n)
    (hend : nMeta + used (update content i (content i ++ chunks.flatten)) n ≤ fsSize) :
    ∃ im', chunks.foldlM (fun im buf => Mkfs.iappend im i buf) im = some im' ∧
      Built (update content i (content i ++ chunks.flatten)) n im' := by
  induction chunks generalizing im content with
  | nil =>
    rw [flatten_nil, append_nil, update_eq_self]
    exact ⟨im, rfl, h⟩
  | cons p chunks ih =>
    have hself : update content i (content i ++ p) i = content i ++ p := update_self ..
    have hwhole : update (update content i (content i ++ p)) i (content i ++ p ++ chunks.flatten) =
        update content i (content i ++ (p :: chunks).flatten) := by
      rw [update_idem, append_assoc, flatten_cons]
    have hmono : used (update content i (content i ++ p)) n ≤
        used (update content i (content i ++ (p :: chunks).flatten)) n := used_mono (Nat.le_refl _) fun j => by
      rw [update_apply, update_apply]
      split
      next =>
        rw [flatten_cons, length_append, length_append, length_append]
        omega
      next => exact Nat.le_refl _
    obtain ⟨im', happend, hbuilt⟩ := h.iappend h1 hi (p := p) (by omega)
    obtain ⟨im'', hfold, hbuilt'⟩ := ih hbuilt (by rw [hself, hwhole]; exact hend)
    rw [hself, hwhole] at hbuilt'
    refine ⟨im'', ?_, hbuilt'⟩
    rw [foldlM_cons, happend]
    exact hfold

end Building

section Files

variable {files rest : List File} {file : File} {im : Image}

def File.content (file : File) : List UInt8 := file.chunks.flatten

def File.name (file : File) : List UInt8 := shortname (basename file.path)

def File.Named (file : File) : Prop := 47 ∉ basename file.path ∧ file.name.length ≤ dirSize

def entries (files : List File) : List UInt8 :=
  dirent 1 [46] ++ dirent 1 [46, 46] ++ files.zipIdx.flatMap fun x => dirent (x.2 + 2) x.1.name

def contents (files : List File) : Nat → List UInt8
  | 0 => []
  | 1 => entries files
  | i + 2 => (files[i]?.map File.content).getD []

theorem entries_snoc : entries (files ++ [file]) = entries files ++ dirent (files.length + 2) file.name := by
  simp [entries, zipIdx_append]

theorem contents_snoc : contents (files ++ [file]) =
    update (update (contents files) 1 (contents files 1 ++ dirent (files.length + 2) file.name))
      (files.length + 2) file.content := by
  funext i
  match i with
  | 0 => rfl
  | 1 =>
    rw [update_of_ne (by omega), update_self]
    exact entries_snoc
  | i + 2 =>
    by_cases hi : i = files.length
    · subst hi
      rw [update_self]
      simp [contents]
    · rw [update_of_ne (by omega), update_of_ne (by omega)]
      rcases Nat.lt_or_gt_of_ne hi with hlt | hgt
      · simp [contents, getElem?_append_left hlt]
      · simp [contents, getElem?_append_right (Nat.le_of_lt hgt),
          getElem?_eq_none (Nat.le_of_lt hgt), Nat.sub_ne_zero_of_lt hgt]

theorem contents_length_le (i : Nat) : (contents files i).length ≤ (contents (files ++ [file]) i).length := by
  match i with
  | 0 => exact Nat.le_refl _
  | 1 =>
    change (entries files).length ≤ (entries (files ++ [file])).length
    rw [entries_snoc, length_append]
    exact Nat.le_add_right ..
  | i + 2 =>
    by_cases hi : i < files.length
    · simp [contents, getElem?_append_left hi]
    · simp [contents, getElem?_eq_none (Nat.le_of_not_lt hi)]

theorem contents_length_le_append (i : Nat) : (contents files i).length ≤ (contents (files ++ rest) i).length := by
  induction rest generalizing files with
  | nil => rw [append_nil]
  | cons file rest ih =>
    have hrest : (contents (files ++ [file]) i).length ≤ (contents (files ++ [file] ++ rest) i).length := ih
    rw [append_assoc, singleton_append] at hrest
    exact Nat.le_trans (contents_length_le i) hrest

theorem Built.addFile (h : Built (contents files) (files.length + 1) im) (hname : file.Named)
    (hend : nMeta + used (contents (files ++ [file])) (files.length + 2) ≤ fsSize) :
    ∃ im', Mkfs.addFile im file = some im' ∧ Built (contents (files ++ [file])) (files.length + 2) im' := by
  have hmono : used (contents files) (files.length + 1) ≤ used (contents (files ++ [file])) (files.length + 2) :=
    used_mono (Nat.le_succ _) contents_length_le
  have hempty : contents files (files.length + 2) = [] := by simp [contents]
  have hroot : used (update (contents files) 1 (contents files 1 ++ dirent (files.length + 2) file.name))
      (files.length + 2) ≤ used (contents (files ++ [file])) (files.length + 2) := used_mono (Nat.le_refl _) fun i => by
    rw [contents_snoc]
    by_cases hi : i = files.length + 2
    · subst hi
      rw [update_of_ne (by omega), hempty]
      exact Nat.zero_le _
    · exact Nat.le_of_eq (congrArg List.length (update_of_ne hi ..).symm)
  have hfree := h.free
  obtain ⟨hinum, halloc⟩ := h.ialloc (by omega) 2
  obtain ⟨im₁, hdir, hbuilt₁⟩ := halloc.iappend (p := dirent (files.length + 2) file.name) (Nat.le_refl 1)
    (Nat.le_add_left ..) (Nat.le_trans (Nat.add_le_add_left hroot _) hend)
  have hfile := hbuilt₁.iappends file.chunks (i := files.length + 2) (by omega) (Nat.le_refl _)
  rw [update_of_ne (by omega), hempty, nil_append] at hfile
  change nMeta + used (update _ _ file.content) _ ≤ _ → ∃ im', _ ∧ Built (update _ _ file.content) _ im' at hfile
  rw [← contents_snoc] at hfile
  obtain ⟨im', hfold, hbuilt⟩ := hfile hend
  refine ⟨im', ?_, hbuilt⟩
  change (if 47 ∈ basename file.path then none else if file.name.length ≤ dirSize then
    (Mkfs.iappend (Mkfs.ialloc im 2).2 1 (dirent (Mkfs.ialloc im 2).1 file.name)).bind fun im' =>
      file.chunks.foldlM (fun im' buf => Mkfs.iappend im' (Mkfs.ialloc im 2).1 buf) im' else none) = some im'
  rw [if_neg hname.1, if_pos hname.2, hinum, hdir]
  exact hfold

theorem Built.addFiles (h : Built (contents files) (files.length + 1) im) (hnames : ∀ file ∈ rest, file.Named)
    (hend : nMeta + used (contents (files ++ rest)) ((files ++ rest).length + 1) ≤ fsSize) :
    ∃ im', rest.foldlM Mkfs.addFile im = some im' ∧ Built (contents (files ++ rest)) ((files ++ rest).length + 1) im' := by
  induction rest generalizing files im with
  | nil =>
    rw [append_nil]
    exact ⟨im, rfl, h⟩
  | cons file rest ih =>
    rw [← singleton_append, ← append_assoc] at hend ⊢
    have hlength : (files ++ [file]).length = files.length + 1 := by simp
    have hmono : used (contents (files ++ [file])) (files.length + 2) ≤
        used (contents (files ++ [file] ++ rest)) ((files ++ [file] ++ rest).length + 1) :=
      used_mono (by simp) contents_length_le_append
    obtain ⟨im₁, hadd, hbuilt⟩ := h.addFile (hnames file mem_cons_self) (by omega)
    obtain ⟨im', hfold, hbuilt'⟩ := ih (show Built _ ((files ++ [file]).length + 1) im₁ by rw [hlength]; exact hbuilt)
      (fun f hf => hnames f (mem_cons_of_mem file hf)) hend
    refine ⟨im', ?_, hbuilt'⟩
    rw [singleton_append, foldlM_cons, hadd]
    exact hfold

theorem built_zeroed : Built (fun _ => []) 0 zeroed where
  size := rfl
  next := rfl
  unmade _ _ := rfl
  holds i h1 hi := by omega
  sizes i h1 hi := by omega
  apart i j p q h1 hi := by omega
  low i p h1 hi := by omega
  covers b hb hlt := absurd hlt (Nat.not_lt.mpr hb)
  free := rfl
  zero b hb k := by
    have hne : b ≠ 1 := by
      change nMeta ≤ b at hb
      unfold nMeta at hb
      omega
    change update (fun _ _ => 0) 1 superblock b k = 0
    rw [update_of_ne hne]

theorem built_files (hnames : ∀ file ∈ files, file.Named)
    (hend : nMeta + used (contents files) (files.length + 1) ≤ fsSize) :
    ∃ im, main files = balloc (fixRoot im) im.freeblock ∧ Built (contents files) (files.length + 1) im := by
  have hle (i : Nat) : (contents [] i).length ≤ (contents ([] ++ files) i).length := contents_length_le_append i
  have hmono : used (contents []) 1 ≤ used (contents files) (files.length + 1) := used_mono (by omega) hle
  have hdot : used (update (fun _ => []) 1 (dirent 1 [46])) 1 ≤ used (contents []) 1 := by decide
  have hempty : update (update (fun _ => []) 1 (dirent 1 [46])) 1 (dirent 1 [46] ++ dirent 1 [46, 46]) =
      contents [] := by
    funext i
    match i with
    | 0 => rfl
    | 1 =>
      rw [update_self]
      rfl
    | i + 2 =>
      rw [update_of_ne (by omega), update_of_ne (by omega)]
      rfl
  have halloc : Built (fun _ => []) 1 (ialloc zeroed 1).2 := (built_zeroed.ialloc (by decide) 1).2
  obtain ⟨im₁, hfirst, hbuilt₁⟩ := halloc.iappend (p := dirent 1 [46]) (Nat.le_refl 1) (Nat.le_refl 1)
    (by rw [nil_append]; omega)
  rw [nil_append] at hbuilt₁
  have hsecond := hbuilt₁.iappend (p := dirent 1 [46, 46]) (Nat.le_refl 1) (Nat.le_refl 1)
  rw [update_self, hempty] at hsecond
  obtain ⟨im₂, hsecond, hbuilt₂⟩ := hsecond (by omega)
  obtain ⟨im, hfold, hbuilt⟩ : ∃ im, files.foldlM addFile im₂ = some im ∧
      Built (contents ([] ++ files)) (([] ++ files).length + 1) im := Built.addFiles hbuilt₂ hnames hend
  refine ⟨im, ?_, hbuilt⟩
  rw [main]
  change (if (1 : Nat) = 1 then _ else _) = _
  rw [if_pos rfl]
  change (iappend (ialloc zeroed 1).2 1 (dirent 1 [46])).bind _ = _
  rw [hfirst, bind_some]
  change (iappend im₁ 1 (dirent 1 [46, 46])).bind _ = _
  rw [hsecond, bind_some]
  change (files.foldlM addFile im₂).bind _ = _
  rw [hfold, bind_some]
  rfl

/-- The input that main can make an image of: the names are short enough, the
inodes fit in the inode blocks and the files in the data blocks. -/
structure Fits (files : List File) : Prop where
  names : ∀ file ∈ files, file.Named
  inodes : files.length + 1 < nInodes
  blocks : nMeta + used (contents files) (files.length + 1) < fsSize

def finished (im : Image) : Image :=
  { fixRoot im with blocks := update im.blocks bmapStart (bitmap im.freeblock) }

theorem main_finished (h : Fits files) :
    ∃ im, main files = some (finished im) ∧ Built (contents files) (files.length + 1) im := by
  obtain ⟨im, hmain, hbuilt⟩ := built_files h.names (Nat.le_of_lt h.blocks)
  have hlt : im.freeblock < FileBlocks.bitsPerBlock := by
    rw [hbuilt.free]
    exact Nat.lt_trans h.blocks (by decide)
  refine ⟨im, ?_, hbuilt⟩
  rw [hmain, balloc, if_pos hlt, wsect_eq]
  · rfl
  · change bmapStart < im.size
    rw [hbuilt.size]
    decide
  · change im.size ≤ _
    rw [hbuilt.size]
    decide

theorem dirent_length {inum : Nat} {name : List UInt8} (h : name.length ≤ dirSize) : (dirent inum name).length = 16 := by
  simp only [dirent, cons_append, length_cons, length_append, length_replicate]
  unfold dirSize at *
  omega

theorem entries_length (hnames : ∀ file ∈ files, file.Named) : (entries files).length = 16 * (files.length + 2) := by
  induction files using List.reverseRecOn with
  | nil => rfl
  | append_singleton files file ih =>
    have hlength := ih fun f hf => hnames f (mem_append_left _ hf)
    have hname := (hnames file (by simp)).2
    rw [entries_snoc, length_append, hlength, dirent_length hname, length_append, length_singleton]
    omega

theorem Built.at_finished {content : Nat → List UInt8} {n i : Nat} {p : Pos} (h : Built content n im) (h1 : 1 ≤ i) (hi : i ≤ n)
    (hp : p.Valid nDirect nIndirect) : (finished im).at i p = im.at i p := by
  have haddrs : ((finished im).inodes i).addrs = (im.inodes i).addrs := by
    change (update im.inodes 1 _ i).addrs = _
    rw [update_apply]
    split
    next heq => rw [heq]
    next => rfl
  change addrAt nDirect _ ((finished im).inodes i).addrs p = _
  rw [haddrs]
  refine addrAt_congr (fun q hq _ hne => ?_) hp
  have hlow : nMeta ≤ im.at i q := h.low i q h1 hi hq hne
  refine update_of_ne (fun heq => ?_) ..
  change im.at i q = bmapStart at heq
  rw [heq] at hlow
  exact absurd hlow (by decide)

/-- The bitmap marks the metadata and the blocks of the files, which are all
different. The blocks of every file are there, and the root directory has its
entries and then zeros. -/
structure Consistent (files : List File) (im : Image) : Prop where
  inodes : im.freeinode = files.length + 2
  bitmap : ∀ b < FileBlocks.bitsPerBlock, FileBlocks.bit ⟨fsSize, bmapStart⟩ im.blocks b = true ↔ b < nMeta ∨
    ∃ i p, 1 ≤ i ∧ i < im.freeinode ∧ p.Valid nDirect nIndirect ∧ im.at i p ≠ 0 ∧ im.at i p = b
  data : ∀ i p, 1 ≤ i → i < im.freeinode → p.Valid nDirect nIndirect → im.at i p ≠ 0 → nMeta ≤ im.at i p
  owner : ∀ i j p q, 1 ≤ i → i < im.freeinode → 1 ≤ j → j < im.freeinode → p.Valid nDirect nIndirect →
    q.Valid nDirect nIndirect → im.at i p ≠ 0 → im.at i p = im.at j q → i = j ∧ p = q
  mapped : ∀ i, 1 ≤ i → i < im.freeinode → ∀ bn < Mkfs.blocks (im.inodes i).size, im.at i (posOf nDirect nIndirect bn) ≠ 0
  root : ∀ k < (im.inodes 1).size,
    im.blocks (im.at 1 (posOf nDirect nIndirect (k / blockSize))) (k % blockSize) = (entries files).getD k 0

theorem bit_finished {b : Nat} (hb : b < FileBlocks.bitsPerBlock) :
    FileBlocks.bit ⟨fsSize, bmapStart⟩ (finished im).blocks b = true ↔ b < im.freeblock := by
  have hblock : FileBlocks.bblock ⟨fsSize, bmapStart⟩ b = bmapStart := by
    rw [FileBlocks.bblock, Nat.div_eq_of_lt hb, Nat.zero_add]
  have hbyte : (finished im).blocks bmapStart = Mkfs.bitmap im.freeblock := by
    change update im.blocks bmapStart (Mkfs.bitmap im.freeblock) bmapStart = _
    rw [update_self]
  rw [FileBlocks.bit, hblock, hbyte, Nat.mod_eq_of_lt hb, bitmap_testBit, decide_eq_true_eq]

section

variable (h : Built (contents files) (files.length + 1) im) (hfits : Fits files)

include h hfits

theorem Built.root_blocks : ((finished im).inodes 1).size = ((files.length + 2) / 64 + 1) * blockSize ∧
    (Mkfs.blocks (contents files 1).length = (files.length + 2) / 64 + 1 ↔ (files.length + 2) % 64 ≠ 0) := by
  have hlength : (contents files 1).length = 16 * (files.length + 2) := entries_length hfits.names
  have hsize : ((finished im).inodes 1).size = ((im.inodes 1).size / blockSize + 1) * blockSize := by
    change (update im.inodes 1
      { im.inodes 1 with size := ((im.inodes 1).size / blockSize + 1) * blockSize } 1).size = _
    rw [update_self]
  rw [hsize, h.sizes 1 (Nat.le_refl 1) (by omega), hlength]
  unfold Mkfs.blocks blockSize
  constructor <;> omega

theorem Built.consistent (hlast : (files.length + 2) % 64 ≠ 0) : Consistent files (finished im) := by
  obtain ⟨hsize, hblocks⟩ := h.root_blocks hfits
  have hnext : (finished im).freeinode = files.length + 2 := h.next
  have hmax (i : Nat) (hi : i ≤ files.length + 1) : blocks (contents files i).length ≤ maxFile := by
    have hle := length_le_of_used hi (Nat.le_of_lt hfits.blocks)
    unfold blocks maxFile nIndirect nDirect fsSize blockSize at *
    omega
  have hneeded (i : Nat) (h1 : 1 ≤ i) (hi : i ≤ files.length + 1) (bn : Nat) (hbn : bn < blocks (contents files i).length) :
      (finished im).at i (posOf nDirect nIndirect bn) ≠ 0 := by
    have hvalid := posOf_valid (D := nDirect) (N := nIndirect) (Nat.lt_of_lt_of_le hbn (hmax i hi))
    rw [h.at_finished h1 hi hvalid]
    exact ((h.holds i h1 hi).exact _ hvalid).mpr (posOf_needed.mpr hbn)
  constructor
  case inodes => exact hnext
  case bitmap =>
    intro b hb
    rw [bit_finished hb, hnext]
    constructor
    · intro hlt
      by_cases hmeta : b < nMeta
      · exact .inl hmeta
      · obtain ⟨i, p, h1, hi, hp, heq⟩ := h.covers b (Nat.le_of_not_lt hmeta) hlt
        have hat := h.at_finished h1 hi hp
        have hpos : 0 < nMeta := by decide
        exact .inr ⟨i, p, h1, by omega, hp, by omega, by omega⟩
    · rintro (hlt | ⟨i, p, h1, hi, hp, -, heq⟩)
      · rw [h.free]
        exact Nat.lt_add_right _ hlt
      · rw [h.at_finished h1 (by omega) hp] at heq
        exact heq ▸ (h.holds i h1 (by omega)).tree.below p hp
  case data =>
    intro i p h1 hi hp hne
    rw [hnext] at hi
    rw [h.at_finished h1 (by omega) hp] at hne ⊢
    exact h.low i p h1 (by omega) hp hne
  case owner =>
    intro i j p q hi1 hi hj1 hj hp hq hne heq
    rw [hnext] at hi hj
    rw [h.at_finished hi1 (by omega) hp] at hne heq
    rw [h.at_finished hj1 (by omega) hq] at heq
    by_cases hij : i = j
    · subst hij
      exact ⟨rfl, (h.holds i hi1 (by omega)).tree.apart p q hp hq hne heq⟩
    · exact absurd heq (h.apart i j p q hi1 (by omega) hj1 (by omega) hij hp hq hne)
  case mapped =>
    intro i h1 hi bn hbn
    rw [hnext] at hi
    refine hneeded i h1 (by omega) bn ?_
    by_cases hroot : i = 1
    · subst hroot
      rw [hsize] at hbn
      rw [hblocks.mpr hlast]
      unfold Mkfs.blocks blockSize at hbn
      omega
    · have hsame : (finished im).inodes i = im.inodes i := update_of_ne hroot ..
      rw [hsame, h.sizes i h1 (by omega)] at hbn
      exact hbn
  case root =>
    intro k hk
    rw [hsize, ← hblocks.mpr hlast] at hk
    have hbn : k / blockSize < blocks (contents files 1).length := (Nat.div_lt_iff_lt_mul (by decide)).mpr hk
    have hvalid := posOf_valid (D := nDirect) (N := nIndirect) (Nat.lt_of_lt_of_le hbn (hmax 1 (by omega)))
    have hne := hneeded 1 (Nat.le_refl 1) (by omega) _ hbn
    rw [h.at_finished (Nat.le_refl 1) (by omega) hvalid] at hne ⊢
    have hlow := h.low 1 _ (Nat.le_refl 1) (by omega) hvalid hne
    have hdata : (finished im).blocks (im.at 1 (posOf nDirect nIndirect (k / blockSize))) =
        im.blocks (im.at 1 (posOf nDirect nIndirect (k / blockSize))) := by
      refine update_of_ne (fun heq => ?_) ..
      rw [heq] at hlow
      exact absurd hlow (by decide)
    rw [hdata]
    exact (h.holds 1 (Nat.le_refl 1) (by omega)).bytes k hk

/-- When the entries fill the last block of the root directory, its size counts
a block that it does not have. -/
theorem Built.root_unmapped
    (hlast : (files.length + 2) % 64 = 0) : (files.length + 2) / 64 < blocks ((finished im).inodes 1).size ∧
    (finished im).at 1 (posOf nDirect nIndirect ((files.length + 2) / 64)) = 0 := by
  obtain ⟨hsize, -⟩ := h.root_blocks hfits
  have hlength : (contents files 1).length = 16 * (files.length + 2) := entries_length hfits.names
  have hinodes := hfits.inodes
  have hvalid : (posOf nDirect nIndirect ((files.length + 2) / 64)).Valid nDirect nIndirect := by
    refine posOf_valid (Nat.lt_of_le_of_lt (Nat.div_le_self ..) ?_)
    unfold nInodes at hinodes
    unfold nDirect nIndirect blockSize
    omega
  refine ⟨?_, ?_⟩
  · rw [hsize]
    unfold blocks blockSize
    omega
  · rw [h.at_finished (Nat.le_refl 1) (by omega) hvalid]
    by_contra hne
    have hneed := posOf_needed.mp (((h.holds 1 (Nat.le_refl 1) (by omega)).exact _ hvalid).mp hne)
    rw [hlength] at hneed
    unfold blocks blockSize at hneed
    omega

end

/-- mkfs makes a consistent image of the files unless the entries fill the last
block of the root directory. -/
theorem mkfs_image_consistent (h : Fits files) :
    ∃ im, main files = some im ∧ (Consistent files im ↔ (files.length + 2) % 64 ≠ 0) := by
  obtain ⟨im, hmain, hbuilt⟩ := main_finished h
  refine ⟨finished im, hmain, fun hcons hlast => ?_, hbuilt.consistent h⟩
  obtain ⟨hlt, hzero⟩ := hbuilt.root_unmapped h hlast
  refine hcons.mapped 1 (Nat.le_refl 1) ?_ _ hlt hzero
  rw [hcons.inodes]
  omega

def small : File := ⟨[97], [[1, 2, 3]]⟩

theorem mkfs_image_consistent_small : Fits [small] ∧ ∃ im, main [small] = some im ∧ Consistent [small] im := by
  have hfits : Fits [small] := by
    refine ⟨fun file hfile => ?_, by decide, by decide +kernel⟩
    rw [List.mem_singleton.mp hfile]
    exact ⟨by decide, by decide⟩
  obtain ⟨im, hmain, hiff⟩ := mkfs_image_consistent hfits
  exact ⟨hfits, im, hmain, hiff.mpr (by decide)⟩

/-- With 62 files the root directory has 64 entries, which fill its only block,
and a size of two blocks. -/
theorem full_root_unmapped : Fits (List.replicate 62 small) ∧ ∃ im, main (List.replicate 62 small) = some im ∧
    (im.inodes 1).size = 2 * blockSize ∧ im.at 1 (posOf nDirect nIndirect 1) = 0 := by
  have hfits : Fits (List.replicate 62 small) := by
    refine ⟨fun file hfile => ?_, by decide, by decide +kernel⟩
    rw [List.eq_of_mem_replicate hfile]
    exact ⟨by decide, by decide⟩
  obtain ⟨im, hmain, hbuilt⟩ := main_finished hfits
  exact ⟨hfits, finished im, hmain, (hbuilt.root_blocks hfits).1, (hbuilt.root_unmapped hfits (by decide)).2⟩

end Files

end Xv6.Mkfs
