import Xv6.Mkfs
import Mathlib.Data.List.GetD

namespace Xv6.Mkfs

open LittleEndian IndexTree Function List Option

section Blocks

variable {im im' : Image} {din din' : Dinode}

def store (im : Image) (din : Dinode) : Store := ⟨im.blocks, din.addrs, im.freeblock⟩

def Image.with (im : Image) (s : Store) : Image := { im with blocks := s.disk, freeblock := s.free }

def Dinode.with (din : Dinode) (s : Store) : Dinode := { din with addrs := s.addrs }

variable {sec : Nat}

theorem sector_eq (h : sec < 2 ^ 22) : sector sec = sec := by
  unfold sector blockSize
  omega

theorem rsect_eq (im : Image) (h : sec < im.size) (hsize : im.size ≤ 2 ^ 22) : rsect im sec = some (im.blocks sec) := by
  rw [rsect, sector_eq (Nat.lt_of_lt_of_le h hsize), if_pos h]

theorem wsect_eq (im : Image) (buf : Bytes) (h : sec < im.size) (hsize : im.size ≤ 2 ^ 22) :
    wsect im sec buf = { im with blocks := update im.blocks sec buf } := by
  rw [wsect, sector_eq (Nat.lt_of_lt_of_le h hsize), Nat.max_eq_left h]

variable {p : Pos}

theorem inodeAddr_eq {k : Nat} (hp : (p = .direct k) ∨ (p = .single ∧ k = nDirect) ∨ (p = .double ∧ k = nDirect + 1)) :
    inodeAddr im din k = (im.with ((store im din).grow nDirect p), din.with ((store im din).grow nDirect p)) := by
  have hat : (store im din).at nDirect p = din.addrs k := by
    rcases hp with rfl | ⟨rfl, rfl⟩ | ⟨rfl, rfl⟩ <;> rfl
  rw [inodeAddr, Store.grow, hat]
  split
  next => rcases hp with rfl | ⟨rfl, rfl⟩ | ⟨rfl, rfl⟩ <;> rfl
  next => rfl

variable {q : Pos} {j : Nat}

theorem blockAddr_eq (im : Image) (din : Dinode) (hsec : (store im din).at nDirect q ≠ 0)
    (hp : (p = .indirect j ∧ q = .single) ∨ (p = .leaf j ∧ q = .double) ∨ ∃ i, p = .entry i j ∧ q = .leaf i)
    (hlt : (store im din).at nDirect q < im.size) (hsize : im.size ≤ 2 ^ 22) :
    blockAddr im ((store im din).at nDirect q) (im.blocks ((store im din).at nDirect q)) j =
      (im.with ((store im din).grow nDirect p), ((store im din).grow nDirect p).disk ((store im din).at nDirect q)) ∧
    ((store im din).grow nDirect p).addrs = din.addrs := by
  have hat : (store im din).at nDirect p = word (im.blocks ((store im din).at nDirect q)) j := by
    rcases hp with ⟨rfl, rfl⟩ | ⟨rfl, rfl⟩ | ⟨i, rfl, rfl⟩ <;> exact child_of_ne hsec
  rw [blockAddr, Store.grow, hat]
  split
  next =>
    have hlink : link nDirect im.blocks din.addrs p im.freeblock = (update im.blocks ((store im din).at nDirect q)
        (setWord (im.blocks ((store im din).at nDirect q)) j im.freeblock), din.addrs) := by
      rcases hp with ⟨rfl, rfl⟩ | ⟨rfl, rfl⟩ | ⟨i, rfl, rfl⟩ <;> rfl
    have hwsect := wsect_eq { im with freeblock := im.freeblock + 1 }
      (setWord (im.blocks ((store im din).at nDirect q)) j im.freeblock) hlt hsize
    dsimp only [store] at hlink hwsect ⊢
    rw [hlink]
    dsimp only
    rw [hwsect, update_self]
    exact ⟨rfl, rfl⟩
  next => exact ⟨rfl, rfl⟩

variable {s : Store}

theorem filled (h : Tree nDirect nIndirect s) (hp : p.Valid nDirect nIndirect)
    (hparent : ∀ q, p.parent = some q → s.at nDirect q ≠ 0) (hword : s.free ≤ 2 ^ 22) :
    Tree nDirect nIndirect (s.grow nDirect p) ∧ (s.grow nDirect p).at nDirect p ≠ 0 := by
  obtain ⟨htree, -, hat, -⟩ := h.grow hp hparent (by omega)
  exact ⟨htree, (hat p hp).mpr (.inr rfl)⟩

theorem level (im : Image) (din : Dinode) (h : Tree nDirect nIndirect s) (hp : p.Valid nDirect nIndirect)
    (hparent : (p = .indirect j ∧ q = .single) ∨ (p = .leaf j ∧ q = .double) ∨ ∃ i, p = .entry i j ∧ q = .leaf i)
    (hat : s.at nDirect q ≠ 0) (hend : s.free ≤ im.size) (hsize : im.size ≤ 2 ^ 22) :
    rsect (im.with s) (s.at nDirect q) = some (s.disk (s.at nDirect q)) ∧
    blockAddr (im.with s) (s.at nDirect q) (s.disk (s.at nDirect q)) j =
      (im.with (s.grow nDirect p), (s.grow nDirect p).disk (s.at nDirect q)) ∧
    din.with s = din.with (s.grow nDirect p) ∧
    word ((s.grow nDirect p).disk (s.at nDirect q)) j = (s.grow nDirect p).at nDirect p := by
  have hq : p.parent = some q := by
    rcases hparent with ⟨rfl, rfl⟩ | ⟨rfl, rfl⟩ | ⟨i, rfl, rfl⟩ <;> rfl
  have hvalid := (parent_valid hp hq).1
  have hlt : s.at nDirect q < im.size := Nat.lt_of_lt_of_le (h.below q hvalid) hend
  obtain ⟨hblock, haddrs⟩ := blockAddr_eq (im.with s) (din.with s) hat hparent hlt hsize
  obtain ⟨-, hgrows, -, -⟩ := h.grow (p := p) hp (fun q' hq' => by cases hq.symm.trans hq'; exact hat) (by omega)
  have hkeeps : (s.grow nDirect p).at nDirect q = s.at nDirect q := hgrows.keeps q hvalid hat
  have haddrs' : (s.grow nDirect p).addrs = s.addrs := haddrs
  refine ⟨rsect_eq (im.with s) hlt hsize, hblock, ?_, ?_⟩
  · rw [Dinode.with, Dinode.with, haddrs']
  · rw [← hkeeps] at hat ⊢
    rcases hparent with ⟨rfl, rfl⟩ | ⟨rfl, rfl⟩ | ⟨i, rfl, rfl⟩ <;> exact (child_of_ne hat).symm

theorem mapBlock_eq {fbn : Nat} (h : Tree nDirect nIndirect (store im din)) (hfbn : fbn < maxFile)
    (hend : ((store im din).extend nDirect nIndirect fbn).free ≤ im.size) (hsize : im.size ≤ 2 ^ 22) :
    mapBlock im din fbn = some (im.with ((store im din).extend nDirect nIndirect fbn),
      din.with ((store im din).extend nDirect nIndirect fbn),
      ((store im din).extend nDirect nIndirect fbn).at nDirect (posOf nDirect nIndirect fbn)) := by
  generalize hs : store im din = s at *
  rw [mapBlock, posOf]
  by_cases hD : fbn < nDirect
  · rw [if_pos hD, if_pos hD, extend_direct hD, inodeAddr_eq (.inl rfl), hs]
    rfl
  · rw [if_neg hD, if_neg hD]
    by_cases hN : fbn - nDirect < nIndirect
    · rw [extend_indirect hD hN] at hend ⊢
      rw [if_pos hN, if_pos (by omega), inodeAddr_eq (.inr (.inl ⟨rfl, rfl⟩)), hs]
      have hle₁ : s.free ≤ (s.grow nDirect .single).free := free_le_grow
      have hle₂ := free_le_grow (D := nDirect) (s := s.grow nDirect .single) (p := .indirect (fbn - nDirect))
      obtain ⟨htree, hat⟩ := filled (p := .single) h trivial (by rintro _ ⟨⟩) (by omega)
      generalize s.grow nDirect .single = s₁ at *
      obtain ⟨hread, hblock, hdin, hx⟩ := level im din htree (p := .indirect (fbn - nDirect)) hN
        (.inl ⟨rfl, rfl⟩) hat (by omega) hsize
      have haddr : (din.with s₁).addrs nDirect = s₁.at nDirect .single := rfl
      dsimp only
      rw [haddr, hread, bind_eq_bind, bind_some, hblock, hdin, hx]
      rfl
    · rw [extend_entry hD hN] at hend ⊢
      have hbounds := top_bounds (D := nDirect) (N := nIndirect) hfbn hN hD
      rw [if_neg hN, if_neg (by omega), inodeAddr_eq (.inr (.inr ⟨rfl, rfl⟩)), hs]
      generalize (fbn - nDirect - nIndirect) / nIndirect = di at *
      generalize (fbn - nDirect - nIndirect) % nIndirect = si at *
      have hle₁ : s.free ≤ (s.grow nDirect .double).free := free_le_grow
      have hle₂ := free_le_grow (D := nDirect) (s := s.grow nDirect .double) (p := .leaf di)
      have hle₃ := free_le_grow (D := nDirect) (s := (s.grow nDirect .double).grow nDirect (.leaf di)) (p := .entry di si)
      obtain ⟨htree, hat⟩ := filled (p := .double) h trivial (by rintro _ ⟨⟩) (by omega)
      generalize s.grow nDirect .double = s₁ at *
      obtain ⟨hread, hblock, hdin, hx⟩ := level im din htree (p := .leaf di) hbounds.1
        (.inr (.inl ⟨rfl, rfl⟩)) hat (by omega) hsize
      obtain ⟨htree', hat'⟩ := filled (p := .leaf di) htree hbounds.1 (fun q hq => by cases hq; exact hat) (by omega)
      generalize s₁.grow nDirect (.leaf di) = s₂ at *
      obtain ⟨hread', hblock', hdin', hx'⟩ := level im din htree' (p := .entry di si) hbounds
        (.inr (.inr ⟨di, rfl, rfl⟩)) hat' (by omega) hsize
      have haddr : (din.with s₁).addrs (nDirect + 1) = s₁.at nDirect .double := rfl
      dsimp only
      rw [haddr, hread, bind_eq_bind, bind_some, hblock, hx, hread', bind_some, hblock', hdin, hdin',
        hx']
      rfl

end Blocks

section Contents

variable {s s' : Store} {content p : List UInt8}

def blocks (n : Nat) : Nat := (n + (blockSize - 1)) / blockSize

/-- The file's blocks are those that its size needs, and they hold its bytes
and zeros after them. -/
structure Holds (s : Store) (content : List UInt8) : Prop where
  tree : Tree nDirect nIndirect s
  exact : Exact nDirect nIndirect (blocks content.length) s
  bytes : ∀ k < blocks content.length * blockSize,
    s.disk (s.at nDirect (posOf nDirect nIndirect (k / blockSize))) (k % blockSize) = content.getD k 0

def put (s : Store) (off : Nat) (p : List UInt8) : Store :=
  let s' := s.extend nDirect nIndirect (off / blockSize)
  let x := s'.at nDirect (posOf nDirect nIndirect (off / blockSize))
  { s' with disk := update s'.disk x (bcopy p (s'.disk x) (off - off / blockSize * blockSize)) }

theorem Holds.extend (h : Holds s content) (hmax : content.length / blockSize < maxFile) (hword : s.free + 3 < 2 ^ 32) :
    Tree nDirect nIndirect (s.extend nDirect nIndirect (content.length / blockSize)) ∧
    Grows nDirect nIndirect Pos.Index s (s.extend nDirect nIndirect (content.length / blockSize)) ∧
    Exact nDirect nIndirect (content.length / blockSize + 1) (s.extend nDirect nIndirect (content.length / blockSize)) ∧
    (s.extend nDirect nIndirect (content.length / blockSize)).free + blocksFor nDirect nIndirect (blocks content.length) =
      s.free + blocksFor nDirect nIndirect (content.length / blockSize + 1) ∧
    ∀ k < (content.length / blockSize + 1) * blockSize,
      (s.extend nDirect nIndirect (content.length / blockSize)).disk
        ((s.extend nDirect nIndirect (content.length / blockSize)).at nDirect
          (posOf nDirect nIndirect (k / blockSize))) (k % blockSize) = content.getD k 0 := by
  by_cases hfull : content.length % blockSize = 0
  · have hblocks : blocks content.length = content.length / blockSize := by
      unfold blocks blockSize
      unfold blockSize at hfull
      omega
    have hexact := h.exact
    have hbytes := h.bytes
    rw [hblocks] at hexact hbytes ⊢
    obtain ⟨htree, hgrows, hexact', hfree⟩ := h.tree.extend hexact hmax hword
    refine ⟨htree, hgrows, hexact', ?_, fun k hk => ?_⟩
    · rw [hfree, blocksFor]
      omega
    · have hkb : k / blockSize ≤ content.length / blockSize :=
        Nat.le_of_lt_succ ((Nat.div_lt_iff_lt_mul (by decide)).mpr hk)
      have hvalid : (posOf nDirect nIndirect (k / blockSize)).Valid nDirect nIndirect :=
        posOf_valid (Nat.lt_of_le_of_lt hkb hmax)
      have hne : (s.extend nDirect nIndirect (content.length / blockSize)).at nDirect
          (posOf nDirect nIndirect (k / blockSize)) ≠ 0 :=
        (hexact' _ hvalid).mpr (posOf_needed.mpr (Nat.lt_succ_of_le hkb))
      -- a data block is not written while the file grows
      have hdisk := hgrows.frame _ hne fun q hq hi heq => by
        have hsame := htree.apart _ q hvalid hq hne heq.symm
        exact posOf_not_index (D := nDirect) (N := nIndirect) _ (hsame ▸ hi)
      rw [hdisk]
      by_cases hold : s.at nDirect (posOf nDirect nIndirect (k / blockSize)) = 0
      · have hge := hgrows.fresh _ hvalid hold hne
        have hnot := mt (hexact _ hvalid).mpr (not_not.mpr hold)
        rw [posOf_needed] at hnot
        have hle : content.length ≤ k := by
          unfold blockSize at hnot hfull
          omega
        rw [h.tree.zero _ hge, getD_eq_getElem?_getD, getElem?_eq_none hle]
        rfl
      · have hlt := posOf_needed.mp ((hexact _ hvalid).mp hold)
        rw [hgrows.keeps _ hvalid hold]
        exact hbytes k ((Nat.div_lt_iff_lt_mul (by decide)).mp hlt)
  · have hblocks : blocks content.length = content.length / blockSize + 1 := by
      unfold blocks blockSize
      unfold blockSize at hfull
      omega
    have hexact := h.exact
    have hbytes := h.bytes
    rw [hblocks] at hexact hbytes ⊢
    rw [extend_of_exact hexact (Nat.lt_succ_self _) hmax]
    exact ⟨h.tree, .refl, hexact, rfl, hbytes⟩

theorem bcopy_getD {buf : Bytes} {start j k : Nat} (hk : k = content.length - start + j) (hstart : start ≤ content.length)
    (hbuf : buf j = content.getD k 0) : bcopy p buf start j = (content ++ p).getD k 0 := by
  rw [bcopy]
  split
  next hle =>
    rw [getD_append_right _ _ _ _ (by omega), show k - content.length = j - start by omega]
    by_cases hlt : j - start < p.length
    · simp [getD_eq_getElem?_getD, getElem?_eq_getElem hlt]
    · rw [hbuf]
      simp only [getD_eq_getElem?_getD]
      rw [getElem?_eq_none (by omega), getElem?_eq_none (by omega)]
      rfl
  next hlt =>
    rw [hbuf, getD_append _ _ _ _ (by omega)]

theorem Holds.put (h : Holds s content) (hmax : content.length / blockSize < maxFile) (hword : s.free + 3 < 2 ^ 32)
    (hp : p.length ≠ 0) (hfit : content.length + p.length ≤ (content.length / blockSize + 1) * blockSize) :
    Holds (put s content.length p) (content ++ p) ∧ Grows nDirect nIndirect (fun _ => True) s (put s content.length p) ∧
    (put s content.length p).free + blocksFor nDirect nIndirect (blocks content.length) =
      s.free + blocksFor nDirect nIndirect (blocks (content ++ p).length) := by
  obtain ⟨htree, hgrows, hexact, hfree, hbytes⟩ := h.extend hmax hword
  have hblocks : blocks (content ++ p).length = content.length / blockSize + 1 := by
    rw [length_append]
    unfold blocks blockSize at *
    omega
  rw [hblocks]
  have hvalid := posOf_valid (D := nDirect) (N := nIndirect) hmax
  have hat := (hexact _ hvalid).mpr (posOf_needed.mpr (Nat.lt_succ_self _))
  rw [Mkfs.put]
  generalize s.extend nDirect nIndirect (content.length / blockSize) = s₁ at *
  dsimp only
  obtain ⟨htree', hgrows', hsame⟩ := htree.write (v := bcopy p
    (s₁.disk (s₁.at nDirect (posOf nDirect nIndirect (content.length / blockSize))))
    (content.length - content.length / blockSize * blockSize)) hvalid (posOf_not_index _) hat
  refine ⟨⟨htree', fun q hq => ?_, fun k hk => ?_⟩, (hgrows.mono fun _ _ => trivial).trans hgrows' h.tree.pos, hfree⟩
  · rw [hsame q hq, hblocks]
    exact hexact q hq
  · rw [hblocks] at hk
    have hkb : k / blockSize < content.length / blockSize + 1 := (Nat.div_lt_iff_lt_mul (by decide)).mpr hk
    have hkvalid := posOf_valid (D := nDirect) (N := nIndirect) (Nat.lt_of_le_of_lt (Nat.le_of_lt_succ hkb) hmax)
    have hold := hbytes k hk
    rw [hsame _ hkvalid]
    dsimp only
    by_cases heq : k / blockSize = content.length / blockSize
    · rw [heq] at hold ⊢
      rw [update_self]
      refine bcopy_getD ?_ (Nat.sub_le ..) hold
      unfold blockSize at *
      omega
    · have hne : s₁.at nDirect (posOf nDirect nIndirect (k / blockSize)) ≠
          s₁.at nDirect (posOf nDirect nIndirect (content.length / blockSize)) := fun hsame' =>
        heq (posOf_inj (htree.apart _ _ hvalid hkvalid hat hsame'.symm)).symm
      rw [update_of_ne hne, hold, getD_append]
      unfold blockSize at *
      omega

theorem blocks_mono {m n : Nat} (h : m ≤ n) : blocks m ≤ blocks n := Nat.div_le_div_right (Nat.add_le_add_right h _)

variable {im : Image} {din : Dinode}

theorem Holds.round_fits (h : Holds (store im din) content) (hp : p.length ≠ 0)
    (hmax : content.length + p.length ≤ maxFile * blockSize)
    (henough : im.freeblock + blocksFor nDirect nIndirect (blocks (content ++ p).length) ≤
      im.size + blocksFor nDirect nIndirect (blocks content.length)) (hsize : im.size ≤ 2 ^ 22) :
    content.length / blockSize < maxFile ∧ im.freeblock + 3 < 2 ^ 32 ∧
    ((store im din).extend nDirect nIndirect (content.length / blockSize)).free ≤ im.size := by
  have hlt : content.length / blockSize < maxFile := (Nat.div_lt_iff_lt_mul (by decide)).mpr (by omega)
  have hmono : blocksFor nDirect nIndirect (blocks content.length) ≤ blocksFor nDirect nIndirect (blocks (content ++ p).length) :=
    blocksFor_mono (blocks_mono (by rw [length_append]; omega))
  have hword : im.freeblock + 3 < 2 ^ 32 := by omega
  obtain ⟨-, -, -, hfree, -⟩ := h.extend hlt hword
  have hblocks : content.length / blockSize + 1 ≤ blocks (content ++ p).length := by
    rw [length_append]
    unfold blocks blockSize
    omega
  have hround := blocksFor_mono (D := nDirect) (N := nIndirect) hblocks
  refine ⟨hlt, hword, ?_⟩
  change _ = im.freeblock + _ at hfree
  omega

theorem appendLoop_spec {rounds : Nat} (h : Holds (store im din) content)
    (hrounds : p.length ≤ rounds) (hmax : content.length + p.length ≤ maxFile * blockSize)
    (henough : im.freeblock + blocksFor nDirect nIndirect (blocks (content ++ p).length) ≤
      im.size + blocksFor nDirect nIndirect (blocks content.length)) (hsize : im.size ≤ 2 ^ 22) :
    ∃ s, appendLoop rounds im din content.length p = some (im.with s, din.with s, (content ++ p).length) ∧
      Holds s (content ++ p) ∧ Grows nDirect nIndirect (fun _ => True) (store im din) s ∧
      s.free + blocksFor nDirect nIndirect (blocks content.length) =
        im.freeblock + blocksFor nDirect nIndirect (blocks (content ++ p).length) := by
  induction rounds generalizing im din content p with
  | zero =>
    obtain rfl : p = [] := eq_nil_of_length_eq_zero (by omega)
    rw [append_nil]
    exact ⟨store im din, rfl, h, .refl, rfl⟩
  | succ rounds ih =>
    rw [appendLoop]
    split
    next hnil =>
      obtain rfl : p = [] := eq_nil_of_length_eq_zero hnil
      rw [append_nil]
      exact ⟨store im din, rfl, h, .refl, rfl⟩
    next hp =>
      obtain ⟨hlt, hword, hend⟩ := h.round_fits hp hmax henough hsize
      have hn1 : min p.length ((content.length / blockSize + 1) * blockSize - content.length) ≠ 0 := by
        unfold blockSize
        omega
      have hroom : content.length + min p.length ((content.length / blockSize + 1) * blockSize - content.length) ≤
          (content.length / blockSize + 1) * blockSize := by
        unfold blockSize
        omega
      have hle := Nat.min_le_left p.length ((content.length / blockSize + 1) * blockSize - content.length)
      dsimp only
      rw [if_pos hlt, mapBlock_eq h.tree hlt hend hsize]
      generalize min p.length ((content.length / blockSize + 1) * blockSize - content.length) = n1 at *
      have htake : (p.take n1).length = n1 := by rw [length_take, Nat.min_eq_left hle]
      have hlength : (content ++ p.take n1).length = content.length + n1 := by rw [length_append, htake]
      have hwhole : content ++ p.take n1 ++ p.drop n1 = content ++ p := by rw [append_assoc, take_append_drop]
      obtain ⟨htree, -, -, -, -⟩ := h.extend hlt hword
      obtain ⟨hholds, hgrows, hfree⟩ := h.put (p := p.take n1) hlt hword (by omega) (by omega)
      have hx := Nat.lt_of_lt_of_le (htree.below _ (posOf_valid hlt)) hend
      obtain ⟨s, hloop, hholds', hgrows', hfree'⟩ := ih
        (show Holds (store (im.with (put (store im din) content.length (p.take n1)))
          (din.with (put (store im din) content.length (p.take n1)))) _ from hholds)
        (p := p.drop n1) (by rw [length_drop]; omega) (by rw [hlength, length_drop]; omega)
        (by
          rw [hwhole]
          change (put (store im din) content.length (p.take n1)).free + _ ≤ im.size + _
          change _ = im.freeblock + _ at hfree
          omega) hsize
      rw [hwhole] at hloop hholds' hfree'
      refine ⟨s, ?_, hholds', hgrows.trans hgrows' h.tree.pos, ?_⟩
      · rw [hlength] at hloop
        change (rsect (im.with _) _).bind _ = _
        rw [rsect_eq (im.with _) hx hsize, bind_some, wsect_eq (im.with _) _ hx hsize]
        exact hloop
      · change _ = (put (store im din) content.length (p.take n1)).free + _ at hfree'
        change _ = im.freeblock + _ at hfree
        omega

theorem iappend_spec {inum : Nat} (h : Holds (store im (im.inodes inum)) content)
    (hlength : (im.inodes inum).size = content.length) (hmax : content.length + p.length ≤ maxFile * blockSize)
    (henough : im.freeblock + blocksFor nDirect nIndirect (blocks (content ++ p).length) ≤
      im.size + blocksFor nDirect nIndirect (blocks content.length)) (hsize : im.size ≤ 2 ^ 22) :
    ∃ s, iappend im inum p =
        some (winode (im.with s) inum { (im.inodes inum).with s with size := (content ++ p).length }) ∧
      Holds s (content ++ p) ∧ Grows nDirect nIndirect (fun _ => True) (store im (im.inodes inum)) s ∧
      s.free + blocksFor nDirect nIndirect (blocks content.length) =
        im.freeblock + blocksFor nDirect nIndirect (blocks (content ++ p).length) := by
  obtain ⟨s, hloop, hspec⟩ := appendLoop_spec h (Nat.le_refl _) hmax henough hsize
  refine ⟨s, ?_, hspec⟩
  rw [iappend, hlength, hloop]
  rfl

theorem holds_nil (haddrs : ∀ k, din.addrs k = 0) (hfree : 0 < im.freeblock)
    (hword : im.freeblock < 2 ^ 32) (hzero : ∀ b, im.freeblock ≤ b → ∀ k, im.blocks b k = 0) : Holds (store im din) [] := by
  have hat (q : Pos) : (store im din).at nDirect q = 0 := by
    cases q with
    | direct | single | double => exact haddrs _
    | indirect | leaf => exact if_pos (haddrs _)
    | entry => exact if_pos (if_pos (haddrs _))
  refine ⟨⟨fun a b _ _ hne => absurd (hat a) hne, fun q _ => ?_, hzero, hword⟩, fun q _ => ?_, fun k hk => ?_⟩
  · rw [hat q]
    exact hfree
  · refine ⟨fun hne => absurd (hat q) hne, fun hneed => ?_⟩
    change q.Needed nDirect nIndirect 0 at hneed
    cases q with
    | direct | single | indirect | double | leaf | entry => exact absurd hneed (Nat.not_lt_zero _)
  · change k < 0 at hk
    exact absurd hk (Nat.not_lt_zero k)

theorem Holds.frame {disk : Nat → Bytes} {free : Nat} (h : Holds s content)
    (hsame : ∀ q, q.Valid nDirect nIndirect → s.at nDirect q ≠ 0 → disk (s.at nDirect q) = s.disk (s.at nDirect q))
    (hfree : s.free ≤ free) (hzero : ∀ b, free ≤ b → ∀ k, disk b k = 0) (hword : free < 2 ^ 32)
    (hmax : content.length ≤ maxFile * blockSize) :
    Holds ⟨disk, s.addrs, free⟩ content ∧
    ∀ q, q.Valid nDirect nIndirect → Store.at nDirect ⟨disk, s.addrs, free⟩ q = s.at nDirect q := by
  have hat (q : Pos) (hq : q.Valid nDirect nIndirect) : Store.at nDirect ⟨disk, s.addrs, free⟩ q = s.at nDirect q :=
    addrAt_congr (fun q' hq' _ hne => hsame q' hq' hne) hq
  refine ⟨⟨⟨fun a b ha hb => ?_, fun q hq => ?_, hzero, hword⟩, fun q hq => ?_, fun k hk => ?_⟩, hat⟩
  · rw [hat a ha, hat b hb]
    exact h.tree.apart a b ha hb
  · rw [hat q hq]
    exact Nat.lt_of_lt_of_le (h.tree.below q hq) hfree
  · rw [hat q hq]
    exact h.exact q hq
  · have hbn : k / blockSize < blocks content.length := (Nat.div_lt_iff_lt_mul (by decide)).mpr hk
    have hle : blocks content.length ≤ maxFile := by
      unfold blocks blockSize at *
      omega
    have hvalid := posOf_valid (D := nDirect) (N := nIndirect) (Nat.lt_of_lt_of_le hbn hle)
    rw [hat _ hvalid]
    change disk _ _ = _
    rw [hsame _ hvalid ((h.exact _ hvalid).mpr (posOf_needed.mpr hbn))]
    exact h.bytes k hk

end Contents

section Reads

variable {s : Store} {content : List UInt8} {sb : FileBlocks.Super} {off n : Nat}

theorem Holds.block (h : Holds s content) (sb : FileBlocks.Super) (hmax : content.length ≤ maxFile * blockSize) (hoff : off < content.length) :
    FileBlocks.bmap sb s.disk s.addrs (off / blockSize) =
      .ok (s.disk, s.addrs, s.at nDirect (posOf nDirect nIndirect (off / blockSize))) ∧
    s.at nDirect (posOf nDirect nIndirect (off / blockSize)) ≠ 0 := by
  have hbn : off / blockSize < maxFile := (Nat.div_lt_iff_lt_mul (by decide)).mpr (by omega)
  have hlt : off / blockSize < blocks content.length := by
    unfold blocks blockSize
    omega
  have hne := (h.exact _ (posOf_valid hbn)).mpr (posOf_needed.mpr hlt)
  exact ⟨FileBlocks.bmap_of_ne hbn hne, hne⟩

theorem Holds.piece {m : Nat} (h : Holds s content) (off : Nat) (hm : m ≤ blockSize - off % blockSize)
    (hend : off + m ≤ content.length) :
    ((List.range m).map fun i => s.disk (s.at nDirect (posOf nDirect nIndirect (off / blockSize))) (off % blockSize + i)) =
      (content.drop off).take m := by
  refine ext_getElem ?_ fun i hi hi' => ?_
  · rw [length_map, length_range, length_take, length_drop]
    omega
  · rw [length_map, length_range] at hi
    have hdiv : (off + i) / blockSize = off / blockSize := by
      unfold blockSize at *
      omega
    have hmod : (off + i) % blockSize = off % blockSize + i := by
      unfold blockSize at *
      omega
    have hlt : off + i < blocks content.length * blockSize := by
      unfold blocks blockSize
      omega
    have hbyte := h.bytes (off + i) hlt
    rw [hdiv, hmod] at hbyte
    rw [getElem_map, getElem_range, hbyte, getElem_take, getElem_drop,
      getD_eq_getElem _ _ (by omega)]

theorem Holds.readLoop {rounds : Nat} (h : Holds s content) (hmax : content.length ≤ maxFile * blockSize)
    (hrounds : n ≤ rounds) (hend : off + n ≤ content.length) :
    FileBlocks.readLoop sb rounds s.disk s.addrs off n = .ok (s.disk, s.addrs, (content.drop off).take n) := by
  induction rounds generalizing off n with
  | zero =>
    obtain rfl : n = 0 := by omega
    rfl
  | succ rounds ih =>
    rw [FileBlocks.readLoop]
    split
    next hn =>
      subst hn
      rfl
    next hn =>
      obtain ⟨hbmap, hne⟩ := h.block sb hmax (show off < content.length by omega)
      have hm : min n (blockSize - off % blockSize) ≠ 0 := by
        unfold blockSize
        omega
      have hle := Nat.min_le_left n (blockSize - off % blockSize)
      have hpiece := h.piece off (m := min n (blockSize - off % blockSize)) (Nat.min_le_right ..) (by omega)
      rw [hbmap]
      dsimp only [bind, Except.bind]
      rw [if_neg hne, hpiece]
      generalize min n (blockSize - off % blockSize) = m at *
      rw [ih (by omega) (by omega)]
      change Except.ok _ = Except.ok _
      rw [← drop_drop, ← take_add, Nat.add_sub_cancel' hle]

theorem Holds.readi (h : Holds s content) (hmax : content.length ≤ maxFile * blockSize) (hn : off + n < 2 ^ 32) :
    FileBlocks.readi sb s.disk s.addrs content.length off n = .ok (s.disk, s.addrs, (content.drop off).take n) := by
  rw [FileBlocks.readi, Nat.mod_eq_of_lt hn]
  split
  next hbad =>
    rw [drop_eq_nil_of_le (by omega), take_nil]
    rfl
  next hok =>
    dsimp only
    split
    next hlong =>
      rw [h.readLoop hmax (Nat.le_refl _) (by omega), take_of_length_le (by simp),
        take_of_length_le (by rw [length_drop]; omega)]
    next hshort => exact h.readLoop hmax (Nat.le_refl _) (by omega)

theorem iappends_spec {im : Image} {inum : Nat} (chunks : List (List UInt8)) (h : Holds (store im (im.inodes inum)) content)
    (hlength : (im.inodes inum).size = content.length)
    (hmax : (content ++ chunks.flatten).length ≤ maxFile * blockSize)
    (henough : im.freeblock + blocksFor nDirect nIndirect (blocks (content ++ chunks.flatten).length) ≤
      im.size + blocksFor nDirect nIndirect (blocks content.length)) (hsize : im.size ≤ 2 ^ 22) :
    ∃ im', chunks.foldlM (fun im p => iappend im inum p) im = some im' ∧
      Holds (store im' (im'.inodes inum)) (content ++ chunks.flatten) ∧
      (im'.inodes inum).size = (content ++ chunks.flatten).length := by
  induction chunks generalizing im content with
  | nil =>
    rw [flatten_nil, append_nil]
    exact ⟨im, rfl, h, hlength⟩
  | cons p chunks ih =>
    rw [flatten_cons, ← append_assoc] at hmax henough ⊢
    have hle : (content ++ p).length ≤ (content ++ p ++ chunks.flatten).length := by
      simp only [length_append]
      omega
    have hmono := blocksFor_mono (D := nDirect) (N := nIndirect) (blocks_mono hle)
    obtain ⟨s, happend, hholds, -, hfree⟩ := iappend_spec (p := p) h hlength
      (by rw [← length_append]; omega) (by omega) hsize
    have hself : (winode (im.with s) inum { (im.inodes inum).with s with size := (content ++ p).length }).inodes inum =
        { (im.inodes inum).with s with size := (content ++ p).length } := update_self ..
    have hfree₁ : (winode (im.with s) inum { (im.inodes inum).with s with size := (content ++ p).length }).freeblock =
        s.free := rfl
    have hsize₁ : (winode (im.with s) inum { (im.inodes inum).with s with size := (content ++ p).length }).size =
        im.size := rfl
    have hholds₁ : Holds (store (winode (im.with s) inum { (im.inodes inum).with s with size := (content ++ p).length })
        ((winode (im.with s) inum { (im.inodes inum).with s with size := (content ++ p).length }).inodes inum))
        (content ++ p) := by
      rw [hself]
      exact hholds
    generalize winode (im.with s) inum { (im.inodes inum).with s with size := (content ++ p).length } = im₁ at *
    obtain ⟨im', hfold, hspec⟩ := ih hholds₁ (by rw [hself]) hmax (by omega) (by omega)
    refine ⟨im', ?_, hspec⟩
    rw [foldlM_cons, happend]
    exact hfold

/-- However a file is cut into pieces for iappend, the kernel reads it back from
the image. -/
theorem appended_file_reads_back {im : Image} {inum : Nat} (chunks : List (List UInt8))
    (hnew : (im.inodes inum).size = 0 ∧ ∀ k, (im.inodes inum).addrs k = 0) (hfree : 0 < im.freeblock)
    (hzero : ∀ b, im.freeblock ≤ b → ∀ k, im.blocks b k = 0) (hmax : chunks.flatten.length ≤ maxFile * blockSize)
    (henough : im.freeblock + blocksFor nDirect nIndirect (blocks chunks.flatten.length) ≤ im.size)
    (hsize : im.size ≤ 2 ^ 22) :
    ∃ im', chunks.foldlM (fun im p => iappend im inum p) im = some im' ∧
      (im'.inodes inum).size = chunks.flatten.length ∧
      ∀ sb off n, off + n < 2 ^ 32 →
        FileBlocks.readi sb im'.blocks (im'.inodes inum).addrs (im'.inodes inum).size off n =
          .ok (im'.blocks, (im'.inodes inum).addrs, (chunks.flatten.drop off).take n) := by
  have hnil : Holds (store im (im.inodes inum)) [] := holds_nil hnew.2 hfree (by omega) hzero
  obtain ⟨im', hfold, hholds, hlength⟩ := iappends_spec chunks hnil hnew.1 (by rwa [List.nil_append])
    (by rw [List.nil_append]; exact Nat.le_trans henough (Nat.le_add_right ..)) hsize
  rw [List.nil_append] at hholds hlength
  refine ⟨im', hfold, hlength, fun sb off n hn => ?_⟩
  rw [hlength]
  exact hholds.readi hmax hn

def oneFile : Image := (ialloc zeroed 2).2

theorem oneFile_zero {b : Nat} (hb : oneFile.freeblock ≤ b) (k : Nat) : oneFile.blocks b k = 0 := by
  have hne : b ≠ 1 := by
    change nMeta ≤ b at hb
    unfold nMeta at hb
    omega
  change update (fun _ _ => 0) 1 superblock b k = 0
  rw [update_of_ne hne]

theorem oneFile_new : (oneFile.inodes 1).size = 0 ∧ ∀ k, (oneFile.inodes 1).addrs k = 0 := ⟨rfl, fun _ => rfl⟩

theorem appended_file_reads_back_two_pieces : ∃ im', [[7], [8, 9]].foldlM (fun im p => iappend im 1 p) oneFile = some im' ∧
    FileBlocks.readi ⟨fsSize, bmapStart⟩ im'.blocks (im'.inodes 1).addrs (im'.inodes 1).size 1 2 =
      .ok (im'.blocks, (im'.inodes 1).addrs, [8, 9]) := by
  obtain ⟨im', hfold, -, hread⟩ := appended_file_reads_back [[7], [8, 9]] oneFile_new (by decide)
    (fun _ hb => oneFile_zero hb) (by decide) (by decide) (by decide)
  exact ⟨im', hfold, hread ⟨fsSize, bmapStart⟩ 1 2 (by decide)⟩

/-- A length for which off + n wraps around reads nothing. -/
theorem wrapping_length_reads_nothing : ∃ im', [[7, 8]].foldlM (fun im p => iappend im 1 p) oneFile = some im' ∧
    (im'.inodes 1).size = [7, 8].length ∧
    FileBlocks.readi ⟨fsSize, bmapStart⟩ im'.blocks (im'.inodes 1).addrs (im'.inodes 1).size 1 (2 ^ 32 - 1) =
      .ok (im'.blocks, (im'.inodes 1).addrs, []) ∧
    ([7, 8].drop 1).take (2 ^ 32 - 1) = [8] := by
  have hnil : Holds (store oneFile (oneFile.inodes 1)) [] :=
    holds_nil oneFile_new.2 (by decide) (by decide) fun _ hb => oneFile_zero hb
  obtain ⟨im', hfold, -, hlength⟩ := iappends_spec [[7, 8]] hnil oneFile_new.1 (by decide) (by decide) (by decide)
  refine ⟨im', hfold, hlength, ?_, by simp⟩
  rw [FileBlocks.readi, if_pos (.inr (by decide))]
  rfl

end Reads

end Xv6.Mkfs
