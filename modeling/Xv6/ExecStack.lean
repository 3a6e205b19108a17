import Xv6.DownwardStack
import Xv6.UserPagesRefinement

namespace Xv6.ExecStack

open List
open LittleEndian Outcomes Riscv Kalloc Vm PageAccounts PageTree PageWalk AddressSpace UserMemory PageTeardown
  UserAccess Processes ProcessSpace Exec ExecImage ProcessPages ProcessSteps ExecSteps UserPagesRefinement DownwardStack

open PageRun (tenPageLayout)

section Writes

variable {m m' : Bytes} {a n x : Nat} {bytes : List UInt8} {items : List (Nat × List UInt8)}

theorem writeAt_of_ne (h : x < a ∨ a + bytes.length ≤ x) : writeAt m a bytes x = m x := by
  rw [writeAt]
  split
  next hle => rw [getElem?_eq_none (by omega), Option.getD_none]
  next => rfl

theorem readAt_congr (h : ∀ x, a ≤ x → x < a + n → m x = m' x) : readAt m a n = readAt m' a n := by
  refine map_congr_left fun i hi => h _ (Nat.le_add_right a i) ?_
  have hlt := mem_range.mp hi
  omega

theorem readAt_writeAt : readAt (writeAt m a bytes) a bytes.length = bytes := by
  refine ext_getElem (by simp [readAt]) fun i hi hi' => ?_
  simp [readAt, writeAt, hi']

def writeAll (m : Bytes) (items : List (Nat × List UInt8)) : Bytes := items.foldl (fun m x => writeAt m x.1 x.2) m

def Clear (x y : Nat × List UInt8) : Prop := x.1 + x.2.length ≤ y.1 ∨ y.1 + y.2.length ≤ x.1

theorem writeAll_outside (h : ∀ y ∈ items, x < y.1 ∨ y.1 + y.2.length ≤ x) : writeAll m items x = m x := by
  induction items generalizing m with
  | nil => rfl
  | cons y items ih =>
    obtain ⟨hy, hrest⟩ := forall_mem_cons.mp h
    exact (ih hrest).trans (writeAt_of_ne hy)

theorem readAt_writeAll (hd : items.Pairwise Clear) {y : Nat × List UInt8} (hy : y ∈ items) :
    readAt (writeAll m items) y.1 y.2.length = y.2 := by
  induction items generalizing m with
  | nil => cases hy
  | cons z items ih =>
    obtain ⟨hz, hrest⟩ := pairwise_cons.mp hd
    rcases mem_cons.mp hy with rfl | hy
    · have hkeep : readAt (writeAll (writeAt m y.1 y.2) items) y.1 y.2.length =
          readAt (writeAt m y.1 y.2) y.1 y.2.length := by
        refine readAt_congr fun x hx hx' => writeAll_outside fun w hw => ?_
        have hclear := hz w hw
        unfold Clear at hclear
        omega
      exact hkeep.trans readAt_writeAt
    · exact ih hrest hy

end Writes

def sizes (argv : List (List UInt8)) : List Nat := argv.map (·.length + 1)

def allocs (argv : List (List UInt8)) : List Nat := sizes argv ++ [(argv.length + 1) * 8]

def Fits (argv : List (List UInt8)) : Prop := extent 16 (allocs argv) ≤ userStack * 4096

instance (argv : List (List UInt8)) : Decidable (Fits argv) := inferInstanceAs (Decidable (_ ≤ _))

def Reads (t : Phys) (r va : Nat) (bytes : List UInt8) : Prop :=
  ∀ j, j < bytes.length → userLoad t r (va + j) = bytes[j]?

/-- The stack that kexec promises: the strings at the addresses addrs and the
array of pointers at sp. -/
structure Stacked (t : Phys) (r sz sp : Nat) (addrs : List Nat) (argv : List (List UInt8)) : Prop where
  aligned : sp % 16 = 0
  inside : sz - userStack * 4096 ≤ sp ∧ sp < sz
  count : addrs.length = argv.length
  pointers : Reads t r sp ((addrs ++ [0]).flatMap wordBytes)
  strings : ∀ x ∈ addrs.zip argv, Reads t r x.1 (x.2 ++ [0])
  bounds : ∀ x ∈ (addrs ++ [sp]).zip (allocs argv), sz - userStack * 4096 ≤ x.1 ∧ x.1 + x.2 ≤ sz
  disjoint : ((addrs ++ [sp]).zip (allocs argv)).Pairwise fun x y => x.1 + x.2 ≤ y.1 ∨ y.1 + y.2 ≤ x.1

variable {sp : Nat}

theorem sub64_cell {k : Nat} (hsp : sp % 16 = 0) (hk : k ≤ sp) (hlt : sp < 2 ^ 64) :
    sub64 (sub64 sp k) (sub64 sp k % 16) = sp - cell 16 k ∧ cell 16 k ≤ sp := by
  have hsub : sub64 sp k = sp - k := by
    rw [sub64]
    omega
  rw [hsub, sub64, cell]
  omega

variable {E : String → Prop} {roots : List Nat} {leaf : Nat → Nat → Pte} {refs : Nat → Nat} {s t : Phys}
  {r n sz tf : Nat} {f : Nat → Pte} {data data' : Nat → Bytes}

theorem copyoutLoop_nil (fuel dstva : Nat) : copyoutLoop r fuel dstva [] = pure (0, []) := by
  cases fuel with
  | zero => rfl
  | succ fuel => rw [copyoutLoop, if_pos rfl]

theorem framed_words (tf sp entry : Nat) (m : Bytes) :
    get64 (framed tf sp entry m) (tf + 48) = BitVec.ofNat 64 sp ∧
      get64 (framed tf sp entry m) (tf + 120) = BitVec.ofNat 64 sp ∧
      get64 (framed tf sp entry m) (tf + 24) = BitVec.ofNat 64 entry := by
  refine ⟨get64_put64 _ _ _, ?_, ?_⟩
  · rw [framed, get64_put64_of_disjoint _ _ _ _ (by omega), get64_put64_of_disjoint _ _ _ _ (by omega), get64_put64]
  · rw [framed, get64_put64_of_disjoint _ _ _ _ (by omega), get64_put64]

variable [Layout]

def onPage (p : Nat) (items : List (Nat × List UInt8)) : List (Nat × List UInt8) :=
  items.map fun x => (p + x.1 % 4096, x.2)

def InPage (n : Nat) (items : List (Nat × List UInt8)) : Prop :=
  ∀ x ∈ items, n * 4096 ≤ x.1 ∧ x.1 + x.2.length ≤ (n + 1) * 4096 ∧ x.2 ≠ []

def wrote (p : Nat) (items : List (Nat × List UInt8)) (s : Phys) : Phys :=
  { s with mem := writeAll s.mem (onPage p items) }

section Page

variable (hr : r ∈ roots) (hn : n < pages sz)

include hn

theorem Image.writes {items : List (Nat × List UInt8)} (hin : InPage n items)
    (h : Image roots leaf refs data r tf sz f data' s) :
    ∃ data'', Image roots leaf refs data r tf sz f data'' (wrote (pte2pa (f n)) items s) := by
  induction items generalizing s data' with
  | nil => exact ⟨data', h⟩
  | cons x items ih =>
    obtain ⟨hx, hrest⟩ := forall_mem_cons.mp hin
    have hpos := length_pos_iff.mpr hx.2.2
    have hlen : x.1 % 4096 + x.2.length ≤ 4096 := by omega
    exact ih hrest (h.write hn (Nat.mod_lt _ (by decide)) hlen)

include hr

theorem Image.copyout {dst : Nat} {src : List UInt8} (hu : has (f n) pteU) (hw : has (f n) pteW)
    (hin : InPage n [(dst, src)]) (h : Image roots leaf refs data r tf sz f data' s) :
    Meets E (copyout r dst src) (fun res t => res.1 = 0 ∧ t = wrote (pte2pa (f n)) [(dst, src)] s) s := by
  obtain ⟨hlow, hhigh, hne⟩ := hin _ mem_cons_self
  dsimp only at hlow hhigh hne
  have hpos := length_pos_iff.mpr hne
  have hfits := h.space.fits
  have hpage := page_numbers
  have hdown : pgRoundDown dst = n * 4096 := by
    unfold pgRoundDown
    omega
  have hpage : n * 4096 / 4096 = n := Nat.mul_div_cancel n (by decide)
  have hin' : n * 4096 / 4096 < pages sz := by rwa [hpage]
  have hlookup := h.lookup hr hin'
  rw [hpage] at hlookup
  obtain ⟨fuel, hfuel⟩ : ∃ fuel, src.length = fuel + 1 := ⟨src.length - 1, by omega⟩
  rw [Vm.copyout, hfuel, copyoutLoop, if_neg hne, hdown, if_neg (by omega), resolve, bind_assoc]
  refine (h.walkaddr hr hin' (by rwa [hpage])).bind ?_
  rintro pa t ⟨rfl, rfl⟩
  rw [hpage, if_neg (h.page_ne_zero hn), pure_bind, if_neg (h.page_ne_zero hn)]
  refine (walk_lookup (by omega) r t).bind ?_
  rintro res u ⟨hs, rfl⟩
  cases res with
  | none =>
    rw [PageTree.lookup, ← hs] at hlookup
    have hv := h.valid n hn
    rw [← hlookup] at hv
    simp [has] at hv
  | some a =>
    have hload : get64 u.mem a = f n := by
      rw [← hlookup, PageTree.lookup, ← hs]
      rfl
    have hlen : src.length ≤ 4096 - dst % 4096 := by omega
    rw [meets_load, hload, if_pos hw]
    dsimp only
    rw [take_of_length_le hlen, drop_of_length_le hlen, meets_bind, meets_modify, copyoutLoop_nil, pure_bind]
    exact ⟨rfl, rfl⟩

end Page

variable {argv : List (List UInt8)}

theorem Image.pushArgs {argc : Nat} {ustack : List Nat} (hr : r ∈ roots)
    (hn : n < pages sz) (hone : 1 ≤ n) (hu : has (f n) pteU) (hw : has (f n) pteW) (hargc : argc + argv.length ≤ maxArg)
    (hlen : ∀ arg ∈ argv, arg.length + 1 ≤ 4096) (hsp : sp % 16 = 0) (hlow : n * 4096 ≤ sp)
    (hhigh : sp ≤ (n + 1) * 4096) (h : Image roots leaf refs data r tf sz f data' s) :
    Meets E (pushArgs r (n * 4096) argv argc sp ustack) (fun res t => ∃ items, InPage n items ∧
      t = wrote (pte2pa (f n)) items s ∧
      (res = none ∧ sp - n * 4096 < extent 16 (sizes argv) ∨ extent 16 (sizes argv) ≤ sp - n * 4096 ∧
          res = some (sp - extent 16 (sizes argv), ustack ++ place 16 sp (sizes argv)) ∧
          items = (place 16 sp (sizes argv)).zip (argv.map (· ++ [0])))) s := by
  have hfits := h.space.fits
  have hpage := page_numbers
  induction argv generalizing argc sp ustack s data' with
  | nil =>
    refine ⟨[], nofun, rfl, .inr ⟨Nat.zero_le _, ?_, rfl⟩⟩
    rw [sizes, map_nil, place_nil, extent_nil, append_nil, Nat.sub_zero]
  | cons arg argv ih =>
    obtain ⟨harg, hrest⟩ := forall_mem_cons.mp hlen
    rw [length_cons] at hargc
    obtain ⟨hcell, hle⟩ := sub64_cell hsp (k := arg.length + 1) (by omega) (by omega)
    have hroom := le_cell (g := 16) (by decide) (arg.length + 1)
    have hal := dvd_cell 16 (arg.length + 1)
    have hsizes : sizes (arg :: argv) = (arg.length + 1) :: sizes argv := rfl
    rw [Exec.pushArgs, if_neg (by omega), hsizes, extent_cons, place_cons]
    dsimp only
    rw [hcell]
    generalize cell 16 (arg.length + 1) = c at *
    refine Meets.ite (fun hlt => ?_) fun hge => ?_
    · exact ⟨[], nofun, rfl, .inl ⟨rfl, by omega⟩⟩
    have hin : InPage n [(sp - c, arg ++ [0])] := by
      refine forall_mem_singleton.mpr ⟨by omega, ?_, append_ne_nil_of_right_ne_nil _ (cons_ne_nil _ _)⟩
      rw [length_append, length_singleton]
      omega
    refine (Image.copyout hr hn hu hw hin h).bind ?_
    rintro ⟨res, cs⟩ t ⟨hres : res = 0, rfl⟩
    rw [if_neg (by omega)]
    obtain ⟨data₁, h₁⟩ := Image.writes hn hin h
    refine (ih (by omega) hrest (by omega) (by omega) (by omega) h₁).mono ?_
    rintro res t ⟨items, hitems, rfl, hout⟩
    refine ⟨(sp - c, arg ++ [0]) :: items, ?_, rfl, ?_⟩
    · exact forall_mem_cons.mpr ⟨hin _ mem_cons_self, hitems⟩
    rcases hout with ⟨hnone, hlt⟩ | ⟨hfit, hsome, rfl⟩
    · exact .inl ⟨hnone, by omega⟩
    · refine .inr ⟨by omega, ?_, rfl⟩
      rw [hsome, append_assoc, singleton_append, Nat.sub_sub]

def addresses (sz : Nat) (argv : List (List UInt8)) : List Nat := place 16 sz (sizes argv)

def contents (sz : Nat) (argv : List (List UInt8)) : List (List UInt8) :=
  argv.map (· ++ [0]) ++ [(addresses sz argv ++ [0]).flatMap wordBytes]

def stackItems (sz : Nat) (argv : List (List UInt8)) : List (Nat × List UInt8) :=
  (place 16 sz (allocs argv)).zip (contents sz argv)

section Items

variable {argv : List (List UInt8)}

omit [Layout]

theorem flatMap_wordBytes_length (l : List Nat) : (l.flatMap wordBytes).length = l.length * 8 := by
  induction l with
  | nil => rfl
  | cons x l ih =>
    rw [flatMap_cons, length_append, ih, length_cons, Nat.succ_mul, Nat.add_comm]
    rfl

theorem contents_length (sz : Nat) (argv : List (List UInt8)) : (contents sz argv).map List.length = allocs argv := by
  rw [contents, map_append, map_map, map_singleton, flatMap_wordBytes_length, length_append,
    addresses, place_length, sizes, length_map, allocs, sizes]
  refine congrArg (· ++ _) (map_congr_left fun arg _ => ?_)
  rw [Function.comp_apply, length_append, length_singleton]

theorem place_allocs : place 16 sz (allocs argv) = addresses sz argv ++ [sz - extent 16 (allocs argv)] := by
  simp [allocs, place_append, extent_append, addresses, Nat.sub_sub]

theorem stackItems_eq : stackItems sz argv = (addresses sz argv).zip (argv.map (· ++ [0])) ++
    [(sz - extent 16 (allocs argv), (addresses sz argv ++ [0]).flatMap wordBytes)] := by
  rw [stackItems, place_allocs, contents, zip_append]
  · rfl
  · rw [addresses, place_length, sizes, length_map, length_map]

theorem stackItems_sizes :
    (stackItems sz argv).map (fun x => (x.1, x.2.length)) = (place 16 sz (allocs argv)).zip (allocs argv) := by
  have hzip : (place 16 sz (allocs argv)).zip ((contents sz argv).map List.length) =
      (stackItems sz argv).map (Prod.map id List.length) := zip_map_right
  rw [contents_length] at hzip
  exact hzip.symm

theorem stackItems_clear (h : Fits argv) (hsz : userStack * 4096 ≤ sz) : (stackItems sz argv).Pairwise Clear := by
  have hdown := place_descending (g := 16) (by decide) (h.trans hsz)
  rw [← stackItems_sizes, pairwise_map] at hdown
  exact hdown.imp fun hle => .inr hle

end Items

theorem Ready.stackPage (h : Ready roots leaf refs data r tf sz f data' s) :
    pages sz - 1 < pages sz ∧ sz = (pages sz - 1 + 1) * 4096 ∧ 1 ≤ pages sz - 1 ∧
      sub64 sz (userStack * 4096) = (pages sz - 1) * 4096 ∧ sz - userStack * 4096 = (pages sz - 1) * 4096 := by
  have hsize := h.size
  have htwo := h.two
  have hfits := h.image.space.fits
  have hpage := page_numbers
  have hU : userStack * 4096 = 4096 := rfl
  rw [sub64]
  omega

/-- The arguments are laid out as planned, or they do not fit. -/
theorem Ready.pushStack (hr : r ∈ roots) (hargs : argv.length < maxArg)
    (hlen : ∀ arg ∈ argv, arg.length < 4096) (h : Ready roots leaf refs data r tf sz f data' s) :
    Meets E (pushStack r sz argv) (fun res t => ∃ items, InPage (pages sz - 1) items ∧
      t = wrote (pte2pa (f (pages sz - 1))) items s ∧
      (res = none ∧ ¬Fits argv ∨
        Fits argv ∧ res = some (sz - extent 16 (allocs argv)) ∧ items = stackItems sz argv)) s := by
  obtain ⟨hn, hsz, hone, hbase, hbase'⟩ := Ready.stackPage h
  have hfits := h.image.space.fits
  have hpage := page_numbers
  have hM : maxArg = 32 := rfl
  have hU : userStack * 4096 = 4096 := rfl
  have hneed : extent 16 (allocs argv) = extent 16 (sizes argv) + cell 16 ((argv.length + 1) * 8) := by
    simp [allocs, extent_append]
  have hwords : ((addresses sz argv ++ [0]).flatMap wordBytes).length = (argv.length + 1) * 8 := by
    rw [flatMap_wordBytes_length, length_append, addresses, place_length, sizes, length_map]
    rfl
  rw [Exec.pushStack, hbase]
  refine (Image.pushArgs hr hn hone h.stack.1 h.stack.2 (by omega) hlen (by omega) (by omega) (by omega) h.image).bind ?_
  rintro res t ⟨items, hin, rfl, ⟨rfl, hlt⟩ | ⟨hfit, rfl, rfl⟩⟩
  · refine ⟨items, hin, rfl, .inl ⟨rfl, fun hfits => ?_⟩⟩
    unfold Fits at hfits
    omega
  · obtain ⟨data₁, h₁⟩ := Image.writes hn hin h.image
    have hal := dvd_extent 16 (sizes argv)
    have hbelow : (argv.length + 1) * 8 ≤ sz - extent 16 (sizes argv) := by omega
    obtain ⟨hcell, hle⟩ := sub64_cell (by omega) hbelow (by omega)
    have hroom := le_cell (g := 16) (by decide) ((argv.length + 1) * 8)
    have hstr : (place 16 sz (sizes argv)).zip (argv.map (· ++ [0])) = (addresses sz argv).zip (argv.map (· ++ [0])) := rfl
    dsimp only
    rw [nil_append, hcell]
    refine Meets.ite (fun hlt => ?_) fun hge => ?_
    · refine ⟨_, hin, rfl, .inl ⟨rfl, fun hfits => ?_⟩⟩
      unfold Fits at hfits
      omega
    have hlast : InPage (pages sz - 1) [(sz - extent 16 (allocs argv), (addresses sz argv ++ [0]).flatMap wordBytes)] := by
      refine forall_mem_singleton.mpr ⟨by omega, ?_, fun hnil => ?_⟩
      · dsimp only
        omega
      · have hzero : ((addresses sz argv ++ [0]).flatMap wordBytes).length = 0 := congrArg List.length hnil
        omega
    rw [show sz - extent 16 (sizes argv) - cell 16 ((argv.length + 1) * 8) = sz - extent 16 (allocs argv) by omega]
    refine (Image.copyout hr hn h.stack.1 h.stack.2 hlast h₁).bind ?_
    rintro ⟨res, cs⟩ t ⟨hres : res = 0, rfl⟩
    rw [if_neg (by omega)]
    refine ⟨stackItems sz argv, ?_, ?_, .inr ⟨?_, rfl, rfl⟩⟩
    · rw [stackItems_eq]
      exact forall_mem_append.mpr ⟨hin, hlast⟩
    · rw [stackItems_eq, wrote, wrote, wrote, onPage, onPage, onPage, map_append, writeAll, writeAll, writeAll,
        foldl_append]
      rfl
    · unfold Fits
      omega

theorem rep_buildImage {file : File} (hargs : argv.length < maxArg)
    (hlen : ∀ arg ∈ argv, arg.length < 4096) (htf : refs tf ≠ 0) (h : Rep roots leaf refs data s) :
    Meets E (buildImage tf file argv) (fun res t =>
      match res with
      | none => Rep roots leaf refs data t
      | some (q, sz, _, _) => q ∉ roots ∧ ∃ f data', Image (q :: roots) leaf refs data q tf sz f data' t) s := by
  rw [buildImage_eq]
  refine (rep_newSpace htf h).bind fun built u hbuilt => ?_
  cases built with
  | none => exact hbuilt
  | some space =>
    obtain ⟨q, sz, entry⟩ := space
    obtain ⟨hq, f, data', hs⟩ := hbuilt
    have hq' : q ∈ q :: roots := mem_cons_self
    obtain ⟨hn, -⟩ := Ready.stackPage hs
    rw [withArgs]
    refine (Ready.pushStack hq' hargs hlen hs).bind ?_
    rintro res t ⟨items, hin, rfl, hout⟩
    obtain ⟨data'', himage⟩ := Image.writes hn hin hs.image
    cases res with
    | none =>
      refine (himage.procFreepagetable hq').bind fun _ x hx => ?_
      rwa [erase_cons_head] at hx
    | some sp => exact ⟨hq, f, data'', himage⟩

section Memory

variable {items : List (Nat × List UInt8)} {p : Nat}

omit [Layout] in
theorem onPage_clear (hin : InPage n items) (hd : items.Pairwise Clear) : (onPage p items).Pairwise Clear := by
  rw [onPage, pairwise_map]
  refine hd.imp_of_mem fun {x y} hx hy hclear => ?_
  obtain ⟨hx1, hx2, hx3⟩ := hin x hx
  obtain ⟨hy1, hy2, hy3⟩ := hin y hy
  have hxpos := length_pos_iff.mpr hx3
  have hypos := length_pos_iff.mpr hy3
  unfold Clear at hclear ⊢
  dsimp only
  omega

omit [Layout] in
theorem wrote_outside {a : Nat} (hin : InPage n items) (hp : p % 4096 = 0) (ha : pgRoundDown a ≠ p) :
    (wrote p items s).mem a = s.mem a := by
  refine writeAll_outside fun y hy => ?_
  obtain ⟨x, hx, rfl⟩ := mem_map.mp hy
  obtain ⟨hx1, hx2, hx3⟩ := hin x hx
  have hpos := length_pos_iff.mpr hx3
  unfold pgRoundDown at ha
  dsimp only
  omega

omit [Layout] in
theorem reads_item {m : Bytes} {y : Nat × List UInt8} (hin : InPage n items) (hd : items.Pairwise Clear) (hy : y ∈ items)
    (hlook : ∀ va, va / 4096 = n → lookup t.mem va 2 r = f n) (hv : has (f n) pteV) (hu : has (f n) pteU)
    (hmem : ∀ o, o < 4096 → t.mem (pte2pa (f n) + o) = writeAll m (onPage (pte2pa (f n)) items) (pte2pa (f n) + o)) :
    Reads t r y.1 y.2 := by
  intro j hj
  obtain ⟨hy1, hy2, -⟩ := hin y hy
  have hoff : (y.1 + j) % 4096 = y.1 % 4096 + j := by omega
  have hread := readAt_writeAll (m := m) (onPage_clear (p := pte2pa (f n)) hin hd) (mem_map_of_mem hy)
  have hbyte := congrArg (·[j]?) hread
  dsimp only at hbyte
  rw [readAt, getElem?_map, getElem?_range hj, Option.map_some] at hbyte
  rw [userLoad]
  rw [hlook _ (by omega), if_pos ⟨hv, hu⟩, hoff, hmem _ (by omega), ← hbyte, Nat.add_assoc]

end Memory

theorem Ready.stacked {m : Bytes} (h : Ready roots leaf refs data r tf sz f data' s)
    (hfit : Fits argv) (hin : InPage (pages sz - 1) (stackItems sz argv))
    (hlook : ∀ va, va / 4096 = pages sz - 1 → lookup t.mem va 2 r = f (pages sz - 1))
    (hmem : ∀ o, o < 4096 → t.mem (pte2pa (f (pages sz - 1)) + o) =
      writeAll m (onPage (pte2pa (f (pages sz - 1))) (stackItems sz argv)) (pte2pa (f (pages sz - 1)) + o)) :
    Stacked t r sz (sz - extent 16 (allocs argv)) (addresses sz argv) argv := by
  obtain ⟨hn, hsz, hone, hbase, hbase'⟩ := Ready.stackPage h
  have hU : userStack * 4096 = 4096 := rfl
  have hle : userStack * 4096 ≤ sz := by omega
  have hread {y : Nat × List UInt8} (hy : y ∈ stackItems sz argv) : Reads t r y.1 y.2 :=
    reads_item hin (stackItems_clear hfit hle) hy hlook (h.image.valid _ hn) h.stack.1 hmem
  have hal := dvd_extent 16 (allocs argv)
  have hpos : 0 < extent 16 (allocs argv) := by
    have hcell := le_cell (g := 16) (by decide) ((argv.length + 1) * 8)
    rw [allocs, extent_append, extent_cons]
    omega
  have hplace : addresses sz argv ++ [sz - extent 16 (allocs argv)] = place 16 sz (allocs argv) := place_allocs.symm
  unfold Fits at hfit
  refine ⟨by omega, by omega, ?_, ?_, fun x hx => ?_, fun x hx => ?_, ?_⟩
  · rw [addresses, place_length, sizes, length_map]
  · refine hread (y := (_, _)) ?_
    rw [stackItems_eq]
    exact mem_append_right _ mem_cons_self
  · refine hread (y := (x.1, x.2 ++ [0])) ?_
    rw [stackItems_eq, zip_map_right]
    exact mem_append_left _ (mem_map_of_mem hx)
  · rw [hplace] at hx
    have hbound := place_inside (by decide) (by omega) hx
    omega
  · rw [hplace]
    exact (place_descending (by decide) (by omega)).imp fun hlt => .inr hlt

/-- From s to t only the stack page of the image at q is written, so nothing
below the stack changes. -/
def OnlyStack (s t : Phys) (q sz : Nat) : Prop :=
  (∀ a, pgRoundDown a ≠ pte2pa (lookup s.mem (sz - userStack * 4096) 2 q) → t.mem a = s.mem a) ∧
    ∀ va, va < sz - userStack * 4096 → userLoad t q va = userLoad s q va

theorem Ready.onlyStack {items : List (Nat × List UInt8)} (hr : r ∈ roots)
    (h : Ready roots leaf refs data r tf sz f data' s) (hin : InPage (pages sz - 1) items) :
    OnlyStack s (wrote (pte2pa (f (pages sz - 1))) items s) r sz := by
  obtain ⟨hn, -, -, -, hbase⟩ := Ready.stackPage h
  obtain ⟨data'', h'⟩ := Image.writes hn hin h.image
  have hal := pte2pa_aligned (f (pages sz - 1))
  have hpage : (pages sz - 1) * 4096 / 4096 = pages sz - 1 := Nat.mul_div_cancel _ (by decide)
  rw [OnlyStack, hbase, h.image.lookup hr (by rwa [hpage]), hpage]
  refine ⟨fun a ha => wrote_outside hin hal ha, fun va hva => ?_⟩
  have hlow : va / 4096 < pages sz - 1 := by omega
  rw [userLoad, userLoad, h'.lookup hr (by omega), h.image.lookup hr (by omega), wrote_outside hin hal]
  rw [pgRoundDown_add (pte2pa_aligned _) (Nat.mod_lt _ (by decide))]
  exact h.image.distinct _ _ hlow hn

def Launched (i : Fin nProc) (tf : Nat) (argv : List (List UInt8)) (k : Kernel) :
    Option (Nat × Nat × Nat) → Int → Kernel → Prop
  | none, res, k' => res = -1 ∧ k'.proc = k.proc
  | some (q, sz, entry), res, k' =>
    if Fits argv then
      res = argv.length ∧
        k'.proc = Function.update k.proc i { k.proc i with pagetable := some q, sz := sz } ∧
        ∃ sp addrs, get64 k'.phys.mem (tf + 48) = BitVec.ofNat 64 sp ∧
          get64 k'.phys.mem (tf + 120) = BitVec.ofNat 64 sp ∧
          get64 k'.phys.mem (tf + 24) = BitVec.ofNat 64 entry ∧ Stacked k'.phys q sz sp addrs argv
    else res = -1 ∧ k'.proc = k.proc

section Launch

variable {table : Nat → Nat} {k : Kernel} {i : Fin nProc} {argv : List (List UInt8)} {file : File}

theorem Ready.launched {q entry : Nat} (h : Ledger leaf refs table k)
    (hspare : Spare (userRefs leaf (k.proc i)) refs (total leaf k + table)) (hr : (k.proc i).pagetable = some r)
    (htf : (k.proc i).trapframe = some tf) (hq : q ∉ rootsOf k.proc)
    (hs : Ready (q :: rootsOf k.proc) leaf refs data q tf sz f data' s) (hfit : Fits argv)
    (hin : InPage (pages sz - 1) (stackItems sz argv))
    (ht : t = wrote (pte2pa (f (pages sz - 1))) (stackItems sz argv) s) :
    Meets E (procFreepagetable r (k.proc i).sz) (fun _ x => Launched i tf argv k (some (q, sz, entry)) argv.length { k with
        phys := x, proc := Function.update k.proc i { k.proc i with pagetable := some q, sz := sz } })
      { t with mem := framed tf (sz - extent 16 (allocs argv)) entry t.mem } := by
  obtain ⟨hn, hsz, -, -, -⟩ := Ready.stackPage hs
  have hframe := h.trapframe_counted hr htf
  obtain ⟨data'', himage⟩ := Image.writes hn hin hs.image
  rw [← ht] at himage
  obtain ⟨rest, hrest, hlast⟩ := Spare.image hr hspare
  have hframe' : (refs + refsOf f 0 (pages sz)) tf ≠ 0 := by
    rw [Pi.add_apply]
    omega
  have hkept : (rest + refsOf f 0 (pages sz)) tf ≠ 0 := by
    have hle := total_ge leaf k i tf
    have hlast' := hlast tf
    rw [procRefs_some hr htf, Pi.add_apply, one_self] at hle
    rw [Pi.add_apply] at hlast' ⊢
    omega
  have hstack : (rest + refsOf f 0 (pages sz)) (pte2pa (f (pages sz - 1))) ≠ 0 := by
    have hne := refsOf_ne_zero (Nat.zero_le _) (by rwa [Nat.zero_add]) (hs.image.valid _ hn)
    rw [Pi.add_apply]
    omega
  have hother : pte2pa (f (pages sz - 1)) ≠ tf := fun he => hframe (he ▸ hs.image.own _ hn)
  have hpage : tf % 4096 = 0 := (himage.rep.accounts.page tf (by omega)).1
  have hw := rep_framed (sz - extent 16 (allocs argv)) entry himage.rep hframe'
  refine (rep_teardown h hr htf hq hrest hw).mono fun _ x hx => ?_
  -- the pages of the trapframe and of the stack come through the teardown
  have hsame {p o : Nat} (hp : (refs + refsOf f 0 (pages sz)) p ≠ 0) (hp' : (rest + refsOf f 0 (pages sz)) p ≠ 0)
      (ho : o < 4096) : x.mem (p + o) = framed tf (sz - extent 16 (allocs argv)) entry t.mem (p + o) :=
    (hx.data p hp' o ho).trans (hw.data p hp o ho).symm
  have hword {o : Nat} (ho : o + 8 ≤ 4096) :
      get64 x.mem (tf + o) = get64 (framed tf (sz - extent 16 (allocs argv)) entry t.mem) (tf + o) := by
    refine get64_congr _ _ _ fun j hj hj' => ?_
    have hat := hsame (o := j - tf) hframe' hkept (by omega)
    rwa [Nat.add_sub_cancel' (by omega)] at hat
  obtain ⟨hsp, ha1, hepc⟩ := framed_words tf (sz - extent 16 (allocs argv)) entry t.mem
  rw [Launched, if_pos hfit]
  refine ⟨rfl, rfl, sz - extent 16 (allocs argv), addresses sz argv, (hword (by decide)).trans hsp,
    (hword (by decide)).trans ha1, (hword (by decide)).trans hepc, ?_⟩
  refine Ready.stacked (m := s.mem) hs hfit hin (fun va hva => ?_) fun o ho => ?_
  · have hfits := hs.image.space.fits
    have hpage := page_numbers
    have hva' : va < 2 * maxVa := by omega
    have hlook := Rep.lookup_eq hx mem_cons_self hva'
    rw [Function.update_self, hva] at hlook
    exact hlook (hs.image.valid _ hn)
  · refine (hsame (hs.image.counted hn) hstack ho).trans ?_
    rw [framed_of_outside hpage, ht]
    · rfl
    · rwa [pgRoundDown_add (pte2pa_aligned _) ho]

theorem kexec_launched {r tf : Nat} (hargs : argv.length < maxArg) (hlen : ∀ arg ∈ argv, arg.length < 4096)
    (h : Ledger leaf refs table k) (hspare : Spare (userRefs leaf (k.proc i)) refs (total leaf k + table))
    (hr : (k.proc i).pagetable = some r) (htf : (k.proc i).trapframe = some tf) :
    Meets (fun _ => False) (newSpace tf file) (fun built _ =>
      Meets (fun _ => False) (kexec i (some file) argv) (Launched i tf argv k built) k) k.phys := by
  obtain ⟨data, hrep⟩ := h.held
  have hframe := h.trapframe_counted hr htf
  obtain ⟨built, s, hrun, hbuilt⟩ := Meets.returns (m := newSpace tf file) (rep_newSpace hframe hrep)
  refine meets_of_run hrun ?_
  rw [meets_kexec hr htf, buildImage_eq, meets_bind]
  refine meets_of_run hrun ?_
  cases built with
  | none => exact ⟨rfl, rfl⟩
  | some space =>
    obtain ⟨q, sz, entry⟩ := space
    obtain ⟨hq, f, data', hs⟩ := hbuilt
    have hq' : q ∈ q :: rootsOf k.proc := mem_cons_self
    rw [withArgs]
    refine (Ready.pushStack hq' hargs hlen hs).bind ?_
    rintro res t ⟨items, hin, rfl, ⟨rfl, hno⟩ | ⟨hfit, rfl, rfl⟩⟩
    · obtain ⟨hn, -, -, -, -⟩ := Ready.stackPage hs
      obtain ⟨data'', himage⟩ := Image.writes hn hin hs.image
      refine (himage.procFreepagetable hq').bind fun _ x _ => ?_
      rw [meets_pure]
      dsimp only
      rw [Launched, if_neg hno]
      exact ⟨rfl, rfl⟩
    · exact Ready.launched h hspare hr htf hq hs hfit hin rfl

end Launch

end Xv6.ExecStack
