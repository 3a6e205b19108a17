import Xv6.OpenFiles

namespace Xv6.FileReferences

open Outcomes Tally FileTable OpenFiles Function List Option

variable {n : Nat} {I α : Type} {s t : Kernel n I} {p q np : Fin (n + 1)} {f : Fin nFile} {fd : Fin nOFile}
  {fs : List (Fin nFile)} {is : List I} {i : I}

theorem meets_onFiles {E : String → Prop} {m : FileOp I α} {Q : α → Kernel n I → Prop} :
    Meets E (onFiles m) Q s ↔ Meets E m (fun a t => Q a { s with files := t }) s.files := by
  cases hrun : m s.files with
  | ok r => simp only [Meets, onFiles, StateT.run, hrun]
  | error e => simp only [Meets, onFiles, StateT.run, hrun]

def slots (proc : Fin (n + 1) → Proc I) (x : Fin (n + 1) × Fin nOFile) : Option (Fin nFile) := (proc x.1).ofile x.2

def cwds (proc : Fin (n + 1) → Proc I) (p : Fin (n + 1)) : Option I := (proc p).cwd

theorem slots_setFd (s : Kernel n I) (p : Fin (n + 1)) (fd : Fin nOFile) (o : Option (Fin nFile)) :
    slots (s.setFd p fd o).proc = update (slots s.proc) (p, fd) o := by
  funext ⟨q, j⟩
  dsimp only [slots, Kernel.setFd, Kernel.setProc]
  by_cases hq : q = p
  · subst hq
    by_cases hj : j = fd
    · subst hj
      simp [update_self]
    · simp [hj, slots]
  · simp [hq, slots]

theorem cwds_setProc (s : Kernel n I) (p : Fin (n + 1)) (v : Proc I) :
    cwds (s.setProc p v).proc = update (cwds s.proc) p v.cwd :=
  Function.comp_update Proc.cwd s.proc p v

theorem cwds_setFd (s : Kernel n I) (p : Fin (n + 1)) (fd : Fin nOFile) (o : Option (Fin nFile)) :
    cwds (s.setFd p fd o).proc = cwds s.proc := by
  rw [Kernel.setFd, cwds_setProc]
  exact update_eq_self p (cwds s.proc)

theorem tally_setFd (s : Kernel n I) (p : Fin (n + 1)) (fd : Fin nOFile) (o : Option (Fin nFile)) (g : Fin nFile) :
    tally (slots (s.setFd p fd o).proc) g + (if (s.proc p).ofile fd = some g then 1 else 0) =
      tally (slots s.proc) g + if o = some g then 1 else 0 := by
  rw [slots_setFd]
  exact tally_update (slots s.proc) (p, fd) o g

theorem slots_setProc (s : Kernel n I) (p : Fin (n + 1)) (v : Proc I) (hv : v.ofile = (s.proc p).ofile) :
    slots (s.setProc p v).proc = slots s.proc := by
  funext ⟨q, j⟩
  dsimp only [slots, Kernel.setProc]
  by_cases hq : q = p
  · rw [hq, update_self, hv]
  · rw [update_of_ne hq]

theorem proc_setProc_self (s : Kernel n I) (p : Fin (n + 1)) (v : Proc I) : (s.setProc p v).proc p = v :=
  update_self ..

theorem proc_setProc_of_ne (s : Kernel n I) (v : Proc I) (h : q ≠ p) : (s.setProc p v).proc q = s.proc q :=
  update_of_ne h ..

theorem state_setFd (s : Kernel n I) (p q : Fin (n + 1)) (fd : Fin nOFile) (o : Option (Fin nFile)) :
    ((s.setFd p fd o).proc q).state = (s.proc q).state := by
  rw [Kernel.setFd]
  by_cases hq : q = p
  · rw [hq, proc_setProc_self]
  · rw [proc_setProc_of_ne s _ hq]

theorem cwd_setFd (s : Kernel n I) (p q : Fin (n + 1)) (fd : Fin nOFile) (o : Option (Fin nFile)) :
    ((s.setFd p fd o).proc q).cwd = (s.proc q).cwd := congrFun (cwds_setFd s p fd o) q

theorem ofile_setFd (s : Kernel n I) (p q : Fin (n + 1)) (fd j : Fin nOFile) (o : Option (Fin nFile)) :
    ((s.setFd p fd o).proc q).ofile j = if (q, j) = (p, fd) then o else (s.proc q).ofile j := by
  have h := congrFun (slots_setFd s p fd o) (q, j)
  rw [update_apply] at h
  exact h

theorem ignore_meets {m : SysOp n I α} {Q : Kernel n I → Prop} (h : Meets (fun _ => False) m (fun _ t => Q t) s) :
    Meets (fun _ => False) (ignore m) (fun _ t => Q t) s :=
  h.bind fun _ _ ht => ht

variable [DecidableEq I]

/-- The references to files are those of the descriptors and of the list fs,
the references to inodes those of the files, of the current directories and of
the list is. -/
structure Owned (s : Kernel n I) (fs : List (Fin nFile)) (is : List I) : Prop where
  held : Held s.files (fun f => tally (slots s.proc) f + fs.count f) (fun i => tally (cwds s.proc) i + is.count i) fun _ => 0
  gone : ∀ p, (s.proc p).state = .unused ∨ (s.proc p).state = .zombie →
    (∀ fd, (s.proc p).ofile fd = none) ∧ (s.proc p).cwd = none
  home : ∀ p, (s.proc p).state = .running → (s.proc p).cwd ≠ none

section Tables

theorem count_cons {β : Type} [DecidableEq β] (a b : β) (l : List β) :
    (a :: l).count b = l.count b + if a = b then 1 else 0 := by
  simp [List.count_cons]

theorem tally_setProc (s : Kernel n I) (p : Fin (n + 1)) (v : Proc I) (i : I) :
    tally (cwds (s.setProc p v).proc) i + (if (s.proc p).cwd = some i then 1 else 0) =
      tally (cwds s.proc) i + if v.cwd = some i then 1 else 0 := by
  rw [cwds_setProc]
  exact tally_update (cwds s.proc) p v.cwd i

end Tables

section Specs

variable {fs' : List (Fin nFile)}

theorem Owned.setFd {o : Option (Fin nFile)} (h : Owned s fs is)
    (hcount : ∀ g, fs'.count g + (if o = some g then 1 else 0) =
      fs.count g + if (s.proc p).ofile fd = some g then 1 else 0)
    (halive : (s.proc p).state = .used ∨ (s.proc p).state = .running) : Owned (s.setFd p fd o) fs' is := by
  refine ⟨h.held.congr (fun g => ?_) (fun i => by rw [cwds_setFd]), fun q hq => ?_, fun q hq => ?_⟩
  · have htally := tally_setFd s p fd o g
    have hg := hcount g
    omega
  · rw [state_setFd] at hq
    have hqp : q ≠ p := by
      rintro rfl
      rcases halive with halive | halive <;> rw [halive] at hq <;> simp at hq
    rw [Kernel.setFd, proc_setProc_of_ne s _ hqp]
    exact h.gone q hq
  · rw [state_setFd] at hq
    rw [cwd_setFd]
    exact h.home q hq

theorem Owned.install (h : Owned s (f :: fs) is) (hfd : (s.proc p).ofile fd = none)
    (halive : (s.proc p).state = .used ∨ (s.proc p).state = .running) : Owned (s.setFd p fd (some f)) fs is := by
  refine h.setFd (fun g => ?_) halive
  rw [hfd, count_cons]
  simp only [some.injEq, reduceCtorEq, if_false, Nat.add_zero]

theorem Owned.uninstall (h : Owned s fs is) (hfd : (s.proc p).ofile fd = some f)
    (halive : (s.proc p).state = .used ∨ (s.proc p).state = .running) : Owned (s.setFd p fd none) (f :: fs) is := by
  refine h.setFd (fun g => ?_) halive
  rw [hfd, count_cons]
  simp only [some.injEq, reduceCtorEq, if_false, Nat.add_zero]

variable {is' : List I}

theorem Owned.onFiles {F : Files I} (h : Owned s fs is)
    (hF : Held F (fun f => tally (slots s.proc) f + fs'.count f) (fun i => tally (cwds s.proc) i + is'.count i) fun _ => 0) :
    Owned { s with files := F } fs' is' := ⟨hF, h.gone, h.home⟩

theorem filealloc_owned (h : Owned s fs is) :
    Meets (fun _ => False) (onFiles filealloc) (fun r t => t.proc = s.proc ∧ match r with
      | none => Owned t fs is
      | some f => (t.files.file f).type = .none ∧ Owned t (f :: fs) is) s := by
  rw [meets_onFiles]
  refine (filealloc_meets h.held).mono fun r F ⟨_, htype, hF⟩ => ⟨rfl, ?_⟩
  cases r with
  | none => exact h.onFiles hF
  | some f =>
    obtain ⟨hzero, hF⟩ := hF
    refine ⟨(htype f).trans (h.held.spare f hzero), h.onFiles (hF.congr (fun g => ?_) fun _ => rfl)⟩
    rw [count_cons, Nat.add_assoc]

theorem fileclose_owned (h : Owned s (f :: fs) is) :
    Meets (fun _ => False) (onFiles (fileclose f)) (fun _ t => t.proc = s.proc ∧ Owned t fs is) s := by
  rw [meets_onFiles]
  refine (fileclose_meets (f := f) h.held fun g => ?_).mono fun _ F hF => ⟨rfl, h.onFiles hF⟩
  rw [count_cons, Nat.add_assoc]

theorem filedup_owned (h : Owned s fs is) (hfd : (s.proc p).ofile fd = some f) :
    Meets (fun _ => False) (onFiles (filedup f)) (fun r t => r = f ∧ t.proc = s.proc ∧ Owned t (f :: fs) is) s := by
  rw [meets_onFiles]
  have hpos : 0 < tally (slots s.proc) f := tally_pos (f := slots s.proc) (x := (p, fd)) hfd
  refine (filedup_meets h.held (Nat.add_pos_left hpos _) fun g => ?_).mono fun r F ⟨hr, hF⟩ => ⟨hr, rfl, h.onFiles hF⟩
  rw [count_cons, Nat.add_assoc]

theorem iref_owned (h : Owned s fs is) :
    Meets (fun _ => False) (onFiles (iref i)) (fun _ t => t.proc = s.proc ∧ Owned t fs (i :: is)) s := by
  rw [meets_onFiles]
  refine (iref_meets h.held fun j => ?_).mono fun _ F hF => ⟨rfl, h.onFiles hF⟩
  rw [count_cons, Nat.add_assoc]

theorem iput_owned (h : Owned s fs (i :: is)) :
    Meets (fun _ => False) (onFiles (iput i)) (fun _ t => t.proc = s.proc ∧ Owned t fs is) s := by
  rw [meets_onFiles]
  refine (iput_meets (i := i) h.held fun j => ?_).mono fun _ F hF => ⟨rfl, h.onFiles hF⟩
  rw [count_cons, Nat.add_assoc]

omit [DecidableEq I] in
theorem fdalloc_meets : Meets (fun _ => False) (fdalloc p f) (fun r t => match r with
      | none => t = s
      | some fd => (s.proc p).ofile fd = none ∧ t = s.setFd p fd (some f)) s := by
  rw [fdalloc, getProc]
  simp only [meets_bind, meets_get, meets_pure]
  split
  next fd hfind =>
    have hfound := find?_some hfind
    exact ⟨of_decide_eq_true hfound, rfl⟩
  next => rfl

variable {x : Int}

omit [DecidableEq I] in
theorem argfd_meets :
    Meets (fun _ => False) (argfd p x) (fun r t => t = s ∧ ∀ fd f, r = some (fd, f) → (s.proc p).ofile fd = some f) s := by
  rw [argfd, getProc]
  simp only [meets_bind, meets_get, meets_pure]
  split
  next hx =>
    refine ⟨rfl, fun fd f hr => ?_⟩
    obtain ⟨g, hg, heq⟩ := map_eq_some_iff.mp hr
    cases heq
    exact hg
  next => exact ⟨rfl, fun fd f hr => by cases hr⟩

variable {v : Proc I}

theorem Owned.setProc (h : Owned s fs is) (hofile : v.ofile = (s.proc p).ofile)
    (hcount : ∀ j, is'.count j + (if v.cwd = some j then 1 else 0) =
      is.count j + if (s.proc p).cwd = some j then 1 else 0)
    (hgone : v.state = .unused ∨ v.state = .zombie → (∀ fd, v.ofile fd = none) ∧ v.cwd = none)
    (hhome : v.state = .running → v.cwd ≠ none) : Owned (s.setProc p v) fs is' := by
  refine ⟨h.held.congr (fun g => by rw [slots_setProc s p v hofile]) fun j => ?_, fun q hq => ?_, fun q hq => ?_⟩
  · have htally := tally_setProc s p v j
    have hj := hcount j
    omega
  · by_cases hqp : q = p
    · rw [hqp, proc_setProc_self] at hq ⊢
      exact hgone hq
    · rw [proc_setProc_of_ne s v hqp] at hq ⊢
      exact h.gone q hq
  · by_cases hqp : q = p
    · rw [hqp, proc_setProc_self] at hq ⊢
      exact hhome hq
    · rw [proc_setProc_of_ne s v hqp] at hq ⊢
      exact h.home q hq

variable {o : Option I}

theorem found_owned (h : Owned s fs is) :
    Meets (fun _ => False) (onFiles (found o)) (fun r t => t.proc = s.proc ∧ Owned t fs (r.toList ++ is)) s := by
  rw [meets_onFiles]
  cases o with
  | none => exact ⟨rfl, h⟩
  | some i =>
    have href := iref_owned (i := i) h
    rw [meets_onFiles] at href
    exact href.bind fun _ F hF => hF

variable {T : Volume I} {omode : UInt32}

theorem follow_owned (left : Nat) (h : Owned s fs (i :: is)) :
    Meets (fun _ => False) (onFiles (follow T omode left i)) (fun r t => t.proc = s.proc ∧ Owned t fs (r.toList ++ is)) s := by
  induction left generalizing s i with
  | zero =>
    rw [meets_onFiles, follow]
    refine Meets.ite (fun _ => ?_) fun _ => ⟨rfl, h⟩
    exact (meets_onFiles.mp (iput_owned h)).bind fun _ F hF => hF
  | succ left ih =>
    rw [meets_onFiles, follow]
    refine Meets.ite (fun _ => ?_) fun _ => ⟨rfl, h⟩
    cases T.readi i with
    | none => exact (meets_onFiles.mp (iput_owned h)).bind fun _ F hF => hF
    | some target =>
      refine (meets_onFiles.mp (iput_owned h)).bind fun _ F hF => ?_
      refine (meets_onFiles.mp (found_owned (o := T.namei target) hF.2)).bind fun r G hG => ?_
      cases r with
      | none => exact hG
      | some j => exact meets_onFiles.mp (ih hG.2)

theorem openInode_owned {path : String} (h : Owned s fs is) :
    Meets (fun _ => False) (onFiles (openInode T path omode)) (fun r t => t.proc = s.proc ∧ Owned t fs (r.toList ++ is)) s := by
  rw [meets_onFiles, openInode]
  refine Meets.ite (fun _ => ?_) fun _ => ?_
  · exact meets_onFiles.mp (found_owned h)
  · refine (meets_onFiles.mp (found_owned (o := T.namei path) h)).bind fun r F hF => ?_
    cases r with
    | none => exact hF
    | some i =>
      refine (meets_onFiles.mp (follow_owned 11 hF.2)).bind fun r G hG => ?_
      cases r with
      | none => exact hG
      | some j =>
        refine Meets.ite (fun _ => ?_) fun _ => hG
        exact (meets_onFiles.mp (iput_owned hG.2)).bind fun _ H hH => hH

theorem sysDup_owned (h : Owned s [] []) (hrun : (s.proc p).state = .running) :
    Meets (fun _ => False) (sysDup p x) (fun _ t => Owned t [] []) s := by
  rw [sysDup]
  refine argfd_meets.bind fun r t ⟨ht, hr⟩ => ?_
  subst ht
  cases r with
  | none => exact h
  | some r =>
    obtain ⟨fd, f⟩ := r
    have hfd := hr fd f rfl
    refine fdalloc_meets.bind fun r t ht => ?_
    cases r with
    | none =>
      rw [ht]
      exact h
    | some fd' =>
      obtain ⟨hnone, rfl⟩ := ht
      -- The descriptor is installed before the reference is counted.
      have hdup := meets_onFiles.mp (filedup_owned h hfd)
      rw [meets_bind, meets_onFiles]
      exact hdup.mono fun _ F hF => hF.2.2.install hnone (Or.inr hrun)

theorem sysClose_owned (h : Owned s [] []) (hrun : (s.proc p).state = .running) :
    Meets (fun _ => False) (sysClose p x) (fun _ t => Owned t [] []) s := by
  rw [sysClose]
  refine argfd_meets.bind fun r t ⟨ht, hr⟩ => ?_
  subst ht
  cases r with
  | none => exact h
  | some r =>
    obtain ⟨fd, f⟩ := r
    have htaken := h.uninstall (hr fd f rfl) (Or.inr hrun)
    exact Meets.bind (Q := fun _ t => Owned t [f] []) htaken fun _ t ht => (fileclose_owned ht).bind fun _ u hu => hu.2

omit [DecidableEq I] in
theorem openedFile_type (T : Volume I) (i : I) (omode : UInt32) (v : File I) :
    (openedFile T i omode v).type = .inode ∨ (openedFile T i omode v).type = .device := by
  unfold openedFile
  by_cases hdev : T.type i = .device
  · right
    simp [hdev]
  · left
    simp [hdev]

omit [DecidableEq I] in
theorem openedFile_ref (T : Volume I) (i : I) (omode : UInt32) (v : File I) : (openedFile T i omode v).ref = v.ref := by
  unfold openedFile
  by_cases hdev : T.type i = .device <;> simp [hdev]

theorem Owned.setOpened (h : Owned s fs (i :: is)) (hfd : (s.proc p).ofile fd = some f)
    (htype : (s.files.file f).type = .none) :
    Owned { s with files := s.files.setFile f (openedFile T i omode (s.files.file f)) } fs is := by
  have hpos : 0 < tally (slots s.proc) f := tally_pos (f := slots s.proc) (x := (p, fd)) hfd
  refine h.onFiles (h.held.setInode htype (openedFile_ref ..) ?_ (openedFile_type ..) rfl fun j => ?_)
  · exact (Nat.add_pos_left hpos _).ne'
  · rw [count_cons, Nat.add_assoc]

variable {path : Option String}

theorem sysOpen_owned (h : Owned s [] [])
    (hrun : (s.proc p).state = .running) : Meets (fun _ => False) (sysOpen p T path omode) (fun _ t => Owned t [] []) s := by
  cases path with
  | none => exact h
  | some path =>
    rw [sysOpen]
    refine (openInode_owned h).bind fun r t ⟨htp, ht⟩ => ?_
    cases r with
    | none => exact ht
    | some i =>
      refine Meets.ite (fun _ => (iput_owned ht).bind fun _ u hu => hu.2) fun _ => ?_
      refine (filealloc_owned ht).bind fun r u ⟨hup, hu⟩ => ?_
      cases r with
      | none => exact (iput_owned hu).bind fun _ w hw => hw.2
      | some f =>
        obtain ⟨htype, hu⟩ := hu
        rw [← htp, ← hup] at hrun
        refine fdalloc_meets.bind fun r w hw => ?_
        cases r with
        | none =>
          rw [hw]
          exact (fileclose_owned hu).bind fun _ x hx => (iput_owned hx.2).bind fun _ y hy => hy.2
        | some fd =>
          obtain ⟨hnone, rfl⟩ := hw
          have hself : ((u.setFd p fd (some f)).proc p).ofile fd = some f := by
            rw [ofile_setFd, if_pos rfl]
          exact (hu.install hnone (Or.inr hrun)).setOpened hself htype

theorem Owned.perm (h : Owned s fs is) (hperm : fs.Perm fs') : Owned s fs' is :=
  ⟨h.held.congr (fun f => by rw [hperm.count_eq]) fun _ => rfl, h.gone, h.home⟩

variable {page : Option Nat}

theorem pipealloc_owned (h : Owned s fs is) (hfree : ∀ pi, page = some pi → s.files.pipe pi = none) :
    Meets (fun _ => False) (onFiles (pipealloc page)) (fun r t => t.proc = s.proc ∧ match r with
      | none => Owned t fs is
      | some (f0, f1) => Owned t (f0 :: f1 :: fs) is) s := by
  rw [meets_onFiles]
  refine (pipealloc_meets h.held hfree).mono fun r F hF => ⟨rfl, ?_⟩
  match r, hF with
  | none, hF => exact h.onFiles hF
  | some (f0, f1), hF =>
    refine h.onFiles (hF.congr (fun g => ?_) fun _ => rfl)
    rw [count_cons, count_cons]
    omega

theorem closeBoth_owned {f0 f1 : Fin nFile} (h : Owned s (f0 :: f1 :: fs) is) : Meets (fun _ => False) (do
      onFiles (fileclose f0)
      onFiles (fileclose f1)
      pure (-1) : SysOp n I Int) (fun _ t => Owned t fs is) s :=
  (fileclose_owned h).bind fun _ _ ht => (fileclose_owned ht.2).bind fun _ _ hu => hu.2

theorem sysPipe_owned {copyout : Bool × Bool} (h : Owned s [] [])
    (hrun : (s.proc p).state = .running) (hfree : ∀ pi, page = some pi → s.files.pipe pi = none) :
    Meets (fun _ => False) (sysPipe p page copyout) (fun _ t => Owned t [] []) s := by
  rw [sysPipe]
  refine (pipealloc_owned h hfree).bind fun r t ⟨htp, ht⟩ => ?_
  match r, ht with
  | none, ht => exact ht
  | some (f0, f1), ht =>
    have hrun0 : (t.proc p).state = .running := by
      rw [htp]
      exact hrun
    refine fdalloc_meets.bind fun r u hu => ?_
    cases r with
    | none =>
      rw [hu]
      exact closeBoth_owned ht
    | some fd0 =>
      obtain ⟨hnone0, rfl⟩ := hu
      have hfirst := ht.install hnone0 (Or.inr hrun0)
      have hrun1 : ((t.setFd p fd0 (some f0)).proc p).state = .running := by
        rw [state_setFd]
        exact hrun0
      have hfd0 : ((t.setFd p fd0 (some f0)).proc p).ofile fd0 = some f0 := by
        rw [ofile_setFd, if_pos rfl]
      refine fdalloc_meets.bind fun r w hw => ?_
      cases r with
      | none =>
        rw [hw]
        have htaken := hfirst.uninstall hfd0 (Or.inr hrun1)
        exact Meets.bind (Q := fun _ t => Owned t [f0, f1] []) htaken fun _ _ hx => closeBoth_owned hx
      | some fd1 =>
        obtain ⟨hnone1, rfl⟩ := hw
        have hsecond := hfirst.install hnone1 (Or.inr hrun1)
        refine Meets.ite (fun _ => ?_) fun _ => hsecond
        have hne : fd0 ≠ fd1 := by
          rintro rfl
          rw [hfd0] at hnone1
          exact absurd hnone1 (some_ne_none f0)
        have htaken0 : Owned (((t.setFd p fd0 (some f0)).setFd p fd1 (some f1)).setFd p fd0 none) [f0] [] :=
          hsecond.uninstall (by rw [ofile_setFd, if_neg (by simp [hne]), hfd0])
            (Or.inr (by rw [state_setFd, hrun1]))
        have htaken1 : Owned ((((t.setFd p fd0 (some f0)).setFd p fd1 (some f1)).setFd p fd0 none).setFd p fd1 none)
            [f1, f0] [] :=
          htaken0.uninstall (by rw [ofile_setFd, if_neg (by simp [Ne.symm hne]), ofile_setFd, if_pos rfl])
            (Or.inr (by rw [state_setFd, state_setFd, hrun1]))
        refine Meets.bind (Q := fun _ (x : Kernel n I) => Owned (x.setFd p fd1 none) [f1, f0] []) htaken1 fun _ _ hx => ?_
        exact Meets.bind (Q := fun _ t => Owned t [f1, f0] []) hx fun _ _ hy =>
          closeBoth_owned (hy.perm (List.Perm.swap ..))

omit [DecidableEq I] in
theorem deref_owned (ho : o ≠ none) :
    Meets (fun _ => False) (onFiles (deref o)) (fun i t => o = some i ∧ t = s) s := by
  obtain ⟨i, rfl⟩ := ne_none_iff_exists'.mp ho
  exact ⟨rfl, rfl⟩

theorem sysChdir_owned (h : Owned s [] []) (hrun : (s.proc p).state = .running) :
    Meets (fun _ => False) (sysChdir p T path) (fun _ t => Owned t [] []) s := by
  cases path with
  | none => exact h
  | some path =>
    rw [sysChdir]
    refine (found_owned h).bind fun r t ⟨htp, ht⟩ => ?_
    cases r with
    | none => exact ht
    | some i =>
      refine Meets.ite (fun _ => (iput_owned ht).bind fun _ u hu => hu.2) fun _ => ?_
      rw [← htp] at hrun
      refine Meets.bind (Q := fun v u => v = t.proc p ∧ u = t) ⟨rfl, rfl⟩ fun v u ⟨hv, hu⟩ => ?_
      subst hv hu
      refine (deref_owned (ht.home p hrun)).bind fun cwd u ⟨hcwd, hu⟩ => ?_
      subst hu
      -- The old directory is put before the new one takes its place.
      have hmoved : Owned (u.setProc p { u.proc p with cwd := some i }) [] [cwd] := by
        refine ht.setProc rfl (fun j => ?_) (fun hgone => ?_) fun _ => some_ne_none i
        · rw [hcwd, count_cons]
          simp only [toList_some, singleton_append, count_cons, some.injEq]
          omega
        · rw [hrun] at hgone
          simp at hgone
      rw [meets_bind, meets_onFiles]
      exact (meets_onFiles.mp (iput_owned hmoved)).mono fun _ F hF => hF.2

omit [DecidableEq I] in
theorem getProc_meets : Meets (fun _ => False) (getProc p) (fun v t => v = s.proc p ∧ t = s) s := ⟨rfl, rfl⟩

/-- What the loop of kfork keeps for the child np of p, with the descriptors
that are still to copy. -/
structure Copying (p np : Fin (n + 1)) (l : List (Fin nOFile)) (s : Kernel n I) : Prop where
  owned : Owned s [] []
  nodup : l.Nodup
  running : (s.proc p).state = .running
  used : (s.proc np).state = .used
  cwd : (s.proc np).cwd = none
  free : ∀ fd ∈ l, (s.proc np).ofile fd = none

variable {l : List (Fin nOFile)}

theorem dupFd_copying (h : Copying p np (fd :: l) s) :
    Meets (fun _ => False) (dupFd p np fd) (fun _ t => Copying p np l t) s := by
  have hnodup := nodup_cons.mp h.nodup
  rw [dupFd]
  refine getProc_meets.bind fun v u ⟨hv, hu⟩ => ?_
  subst hv hu
  cases hfd : (u.proc p).ofile fd with
  | none => exact ⟨h.owned, hnodup.2, h.running, h.used, h.cwd, fun j hj => h.free j (mem_cons_of_mem fd hj)⟩
  | some f =>
    refine (filedup_owned h.owned hfd).bind fun g t ⟨hg, htp, ht⟩ => ?_
    subst hg
    have hfree : (t.proc np).ofile fd = none := by
      rw [htp]
      exact h.free fd mem_cons_self
    have hused : (t.proc np).state = .used := by
      rw [htp]
      exact h.used
    change Copying p np l (t.setFd np fd (some g))
    refine ⟨ht.install hfree (Or.inl hused), hnodup.2, ?_, ?_, ?_, fun j hj => ?_⟩
    · rw [state_setFd, htp]
      exact h.running
    · rw [state_setFd]
      exact hused
    · rw [cwd_setFd, htp]
      exact h.cwd
    · have hne : (np, j) ≠ (np, fd) := fun heq => hnodup.1 ((Prod.mk.inj heq).2 ▸ hj)
      rw [ofile_setFd, if_neg hne, htp]
      exact h.free j (mem_cons_of_mem fd hj)

theorem Owned.setState (h : Owned s fs is) (hofile : v.ofile = (s.proc p).ofile) (hcwd : v.cwd = (s.proc p).cwd)
    (hgone : v.state = .unused ∨ v.state = .zombie → (∀ fd, v.ofile fd = none) ∧ v.cwd = none)
    (hhome : v.state = .running → v.cwd ≠ none) : Owned (s.setProc p v) fs is :=
  h.setProc hofile (fun j => by rw [hcwd]) hgone hhome

theorem Owned.start {cwd : I} (h : Owned s [] [cwd]) (hcwd : (s.proc np).cwd = none) :
    Owned (s.setProc np { s.proc np with cwd := some cwd, state := .running }) [] [] := by
  refine h.setProc rfl (fun j => ?_) (fun hgone => by simp at hgone) fun _ => some_ne_none cwd
  rw [hcwd, count_cons]
  simp only [some.injEq, reduceCtorEq, if_false, Nat.add_zero]

theorem kfork_owned {memory : Bool} (h : Owned s [] []) (hrun : (s.proc p).state = .running) :
    Meets (fun _ => False) (kfork p memory) (fun _ t => Owned t [] []) s := by
  rw [kfork]
  refine Meets.bind (Q := fun v t => v = s ∧ t = s) ⟨rfl, rfl⟩ fun v u ⟨hv, hu⟩ => ?_
  subst hv hu
  split
  next => exact h
  next np hfind =>
    have hfound := find?_some hfind
    have hunused := of_decide_eq_true hfound
    obtain ⟨hofile, hcwd⟩ := h.gone np (Or.inl hunused)
    have hne : p ≠ np := by
      rintro rfl
      rw [hrun] at hunused
      cases hunused
    have hused : Owned (u.setProc np { u.proc np with state := .used }) [] [] :=
      h.setState rfl rfl (fun hgone => by simp at hgone) (fun hr => by cases hr)
    have hself := proc_setProc_self u np { u.proc np with state := .used }
    refine Meets.bind (Q := fun _ t => t = u.setProc np { u.proc np with state := .used }) rfl fun _ t ht => ?_
    subst ht
    refine Meets.ite (fun _ => ?_) fun _ => ?_
    · exact hused.setState rfl rfl (fun _ => by rw [hself]; exact ⟨hofile, hcwd⟩) (fun hr => by cases hr)
    · have hstart : Copying p np (List.finRange nOFile) (u.setProc np { u.proc np with state := .used }) := by
        refine ⟨hused, nodup_finRange nOFile, ?_, ?_, ?_, fun fd _ => ?_⟩
        · rw [proc_setProc_of_ne u _ hne]
          exact hrun
        · rw [hself]
        · rw [hself]
          exact hcwd
        · rw [hself]
          exact hofile fd
      refine (meets_forM (I := fun l t => Copying p np l t) (fun fd l t ht => dupFd_copying ht) hstart).bind fun _ t ht => ?_
      refine getProc_meets.bind fun v w ⟨hv, hw⟩ => ?_
      subst hv hw
      refine (deref_owned (ht.owned.home p ht.running)).bind fun cwd t ⟨_, hu⟩ => ?_
      subst hu
      refine (iref_owned (i := cwd) ht.owned).bind fun _ w ⟨hwp, hw⟩ => ?_
      have hcwd' : (w.proc np).cwd = none := by
        rw [hwp]
        exact ht.cwd
      have hfinal := hw.start hcwd'
      refine Meets.bind (Q := fun _ x => x = w.setProc np { w.proc np with cwd := some cwd }) rfl fun _ x hx => ?_
      subst hx
      change Owned ((w.setProc np _).setProc np { (w.setProc np _).proc np with state := .running }) [] []
      rw [proc_setProc_self, Kernel.setProc, Kernel.setProc, update_idem]
      exact hfinal

structure Closing (p : Fin (n + 1)) (l : List (Fin nOFile)) (s : Kernel n I) : Prop where
  owned : Owned s [] []
  running : (s.proc p).state = .running
  closed : ∀ fd, fd ∉ l → (s.proc p).ofile fd = none

theorem closeFd_closing (h : Closing p (fd :: l) s) :
    Meets (fun _ => False) (closeFd p fd) (fun _ t => Closing p l t) s := by
  rw [closeFd]
  refine getProc_meets.bind fun v u ⟨hv, hu⟩ => ?_
  subst hv hu
  cases hfd : (u.proc p).ofile fd with
  | none =>
    refine ⟨h.owned, h.running, fun j hj => ?_⟩
    by_cases hjfd : j = fd
    · rw [hjfd]
      exact hfd
    · exact h.closed j (by simp [hjfd, hj])
  | some f =>
    -- The reference is dropped before the descriptor is cleared.
    have htaken := h.owned.uninstall hfd (Or.inr h.running)
    rw [meets_bind, meets_onFiles]
    refine (meets_onFiles.mp (fileclose_owned htaken)).mono fun _ F hF => ⟨hF.2, ?_, fun j hj => ?_⟩
    · exact (state_setFd u p p fd none).trans h.running
    · refine (ofile_setFd u p p fd j none).trans ?_
      split
      next => rfl
      next hne =>
        have hjfd : j ≠ fd := fun heq => hne (heq ▸ rfl)
        exact h.closed j (by simp [hjfd, hj])

theorem kexit_owned (h : Owned s [] []) (hrun : (s.proc p).state = .running) (hp : p ≠ 0) :
    Meets (fun _ => False) (kexit p) (fun _ t => Owned t [] []) s := by
  rw [kexit, if_neg hp]
  have hstart : Closing p (List.finRange nOFile) s := ⟨h, hrun, fun fd hfd => absurd (mem_finRange fd) hfd⟩
  refine (meets_forM (I := fun l t => Closing p l t) (fun fd l t ht => closeFd_closing ht) hstart).bind fun _ t ht => ?_
  refine getProc_meets.bind fun v u ⟨hv, hu⟩ => ?_
  subst hv hu
  refine (deref_owned (ht.owned.home p ht.running)).bind fun cwd t ⟨hcwd, hu⟩ => ?_
  subst hu
  have hleft : Owned (t.setProc p { t.proc p with cwd := none, state := .zombie }) [] [cwd] := by
    refine ht.owned.setProc rfl (fun j => ?_) (fun _ => ⟨fun fd => ht.closed fd not_mem_nil, rfl⟩) fun hr => by cases hr
    rw [hcwd, count_cons]
    simp only [some.injEq, reduceCtorEq, if_false, Nat.add_zero]
  rw [meets_bind, meets_onFiles]
  exact (meets_onFiles.mp (iput_owned hleft)).mono fun _ F hF => hF.2

end Specs

section Run

theorem run_owned {c : Call n I} (h : Owned s [] []) (hc : Enabled s c) (hinit : c ≠ .exit 0) :
    Meets (fun _ => False) c.run (fun _ t => Owned t [] []) s := by
  cases c with
  | «open» p T path omode => exact ignore_meets (sysOpen_owned h hc)
  | dup p fd => exact ignore_meets (sysDup_owned h hc)
  | pipe p page copyout => exact ignore_meets (sysPipe_owned h hc.1 hc.2)
  | close p fd => exact ignore_meets (sysClose_owned h hc)
  | chdir p T path => exact ignore_meets (sysChdir_owned h hc)
  | fork p memory => exact ignore_meets (kfork_owned h hc)
  | exit p => exact kexit_owned h hc fun hp => hinit (hp ▸ rfl)
  | wait q =>
    have hgone := h.gone q (Or.inr hc)
    exact h.setState rfl rfl (fun _ => hgone) fun hr => by cases hr

theorem cwds_boot (root : I) : cwds (boot root : Kernel n I).proc = update (fun _ => none) 0 (some root) :=
  Function.comp_update Proc.cwd _ _ _

theorem ofile_boot (root : I) (p : Fin (n + 1)) (fd : Fin nOFile) : ((boot root : Kernel n I).proc p).ofile fd = none := by
  dsimp only [boot]
  rw [update_apply]
  split
  next => rfl
  next => rfl

theorem state_boot (root : I) : ((boot root : Kernel n I).proc 0).state = .running := by
  dsimp only [boot]
  rw [update_self]

theorem owned_boot (root : I) : Owned (boot root : Kernel n I) [] [] := by
  have hslots (f : Fin nFile) : tally (slots (boot root : Kernel n I).proc) f = 0 :=
    tally_eq_zero.mpr fun x hx => by
      rw [slots, ofile_boot] at hx
      cases hx
  have hcwds (i : I) : tally (cwds (boot root : Kernel n I).proc) i = if root = i then 1 else 0 := by
    have htally := tally_update (fun _ : Fin (n + 1) => (none : Option I)) 0 (some root) i
    have hzero : tally (fun _ : Fin (n + 1) => (none : Option I)) i = 0 := tally_eq_zero.mpr fun x hx => by cases hx
    rw [hzero] at htally
    rw [cwds_boot]
    simpa using htally
  refine ⟨⟨fun f => ?_, fun f _ => rfl, fun f => trivial, fun e => ?_, fun pi q hq => absurd hq (by simp [boot]), fun i => ?_, fun pi => rfl⟩,
    fun p hp => ⟨ofile_boot root p, ?_⟩, fun p hp => ?_⟩
  · rw [hslots]
    rfl
  · have hzero : tally (fun f => ((boot root : Kernel n I).files.file f).tip) e = 0 :=
      tally_eq_zero.mpr fun x hx => by cases hx
    rw [hzero]
    rfl
  · have hzero : tally (fun f => ((boot root : Kernel n I).files.file f).inode) i = 0 :=
      tally_eq_zero.mpr fun x hx => by cases hx
    rw [hzero, hcwds]
    change (if root = i then 1 else 0 : Int) = _
    split
    next => rfl
    next => rfl
  · by_cases hp0 : p = 0
    · subst hp0
      rw [state_boot] at hp
      simp at hp
    · exact (congrFun (cwds_boot root) p).trans (update_of_ne hp0 ..)
  · by_cases hp0 : p = 0
    · subst hp0
      have hcwd : ((boot root : Kernel n I).proc 0).cwd = some root :=
        (congrFun (cwds_boot root) 0).trans (update_self ..)
      rw [hcwd]
      exact some_ne_none root
    · dsimp only [boot] at hp
      rw [update_of_ne hp0] at hp
      cases hp

theorem reaches_owned (h : Reaches s) : Owned s [] [] := by
  induction h with
  | boot root => exact owned_boot root
  | call c _ hc hrun ih =>
    by_cases hinit : c = .exit 0
    · subst hinit
      cases hrun
    · exact (run_owned ih hc hinit).ok hrun

def IsEnd (s : Kernel n I) (pi : Nat) (writable : Bool) (f : Fin nFile) : Prop :=
  0 < (s.files.file f).ref ∧ (s.files.file f).type = .pipe ∧ (s.files.file f).pipe = some pi ∧
    (s.files.file f).writable = writable

variable {pi : Nat} {w : Bool}

theorem isEnd_iff (h : Owned s [] []) : IsEnd s pi w f ↔ (s.files.file f).tip = some (pi, w) := by
  refine ⟨fun ⟨_, htype, hpipe, hw⟩ => ?_, fun htip => ?_⟩
  · rw [File.tip, htype, hpipe, ← hw]
    rfl
  · have htype : (s.files.file f).type = .pipe := by
      by_contra hother
      rw [File.tip] at htip
      split at htip
      next hpipe => exact hother hpipe
      next => cases htip
    rw [File.tip, htype] at htip
    obtain ⟨pj, hpj, heq⟩ := map_eq_some_iff.mp htip
    cases heq
    have href := h.held.refs f
    have hne : tally (slots s.proc) f + List.count f [] ≠ 0 := fun hzero => by
      have hnone := h.held.spare f hzero
      rw [htype] at hnone
      cases hnone
    exact ⟨by omega, htype, hpj, rfl⟩

theorem opened_iff (h : Owned s [] []) : s.files.opened (pi, w) = true ↔ ∃ f, IsEnd s pi w f := by
  have hends := h.held.ends (pi, w)
  refine ⟨fun hopen => ?_, fun ⟨f, hf⟩ => ?_⟩
  · rw [if_pos hopen] at hends
    by_contra hnone
    have hzero : tally (fun f => (s.files.file f).tip) (pi, w) = 0 :=
      tally_eq_zero.mpr fun f hf => hnone ⟨f, (isEnd_iff h).mpr hf⟩
    omega
  · by_contra hclosed
    rw [if_neg hclosed] at hends
    have hpos := tally_pos (f := fun f => (s.files.file f).tip) ((isEnd_iff h).mp hf)
    omega

/-- Open files, pipes and their references between any system calls. -/
theorem open_file_lifetimes (h : Reaches s) :
    (∀ f, (s.files.file f).ref = tally (fun x : Fin (n + 1) × Fin nOFile => (s.proc x.1).ofile x.2) f) ∧
    (∀ f, (s.files.file f).ref = 0 → (s.files.file f).type = .none) ∧
    (∀ pi q, s.files.pipe pi = some q →
      (q.readopen = true ↔ ∃ f, IsEnd s pi false f) ∧ (q.writeopen = true ↔ ∃ f, IsEnd s pi true f)) ∧
    (∀ pi, (s.files.pipe pi).isSome = true ↔ ∃ w f, IsEnd s pi w f) ∧
    (∀ pi, s.files.kallocs pi = s.files.kfrees pi + if (s.files.pipe pi).isSome then 1 else 0) ∧
    (∀ f, (s.files.file f).type = .inode ∨ (s.files.file f).type = .device → ∃ i, (s.files.file f).inode = some i) ∧
    (∀ i, s.files.ref i =
      tally (fun f => (s.files.file f).inode) i + tally (fun p : Fin (n + 1) => (s.proc p).cwd) i) ∧
    ∀ c, Enabled s c → c ≠ .exit 0 → ∃ t, c.run.run s = .ok ((), t) := by
  have ho := reaches_owned h
  refine ⟨ho.held.refs, fun f hzero => ?_, fun pi q hq => ⟨?_, ?_⟩, fun pi => ⟨fun hsome => ?_, fun ⟨w, hf⟩ => ?_⟩,
    ho.held.balance, fun f hf => ?_, fun i => ?_, fun c hc hinit => ?_⟩
  · have href := ho.held.refs f
    exact ho.held.spare f (by omega)
  · have hread : s.files.opened (pi, false) = true ↔ ∃ f, IsEnd s pi false f := opened_iff ho
    rw [Files.opened, hq] at hread
    exact hread
  · have hwrite : s.files.opened (pi, true) = true ↔ ∃ f, IsEnd s pi true f := opened_iff ho
    rw [Files.opened, hq] at hwrite
    exact hwrite
  · obtain ⟨q, hq⟩ := Option.isSome_iff_exists.mp hsome
    rcases ho.held.alive pi q hq with hread | hwrite
    · refine ⟨false, (opened_iff ho).mp ?_⟩
      rw [Files.opened, hq]
      exact hread
    · refine ⟨true, (opened_iff ho).mp ?_⟩
      rw [Files.opened, hq]
      exact hwrite
  · obtain ⟨q, hq, -⟩ := (Option.any_eq_true _ _).mp ((opened_iff ho).mpr hf)
    rw [hq]
    rfl
  · have htyped := ho.held.typed f
    rcases hf with hf | hf <;> rw [File.WellTyped, hf] at htyped <;> rw [File.inode, hf] <;>
      exact Option.ne_none_iff_exists'.mp htyped
  · have hinodes := ho.held.inodes i
    rw [hinodes]
    rfl
  · obtain ⟨_, t, hrun, -⟩ := (run_owned ho hc hinit).returns
    exact ⟨t, hrun⟩

theorem open_file_lifetimes_pipe : ∃ t : Kernel 1 Nat, (Call.pipe 0 (some 7) (true, true)).run.run (boot 3) = .ok ((), t) ∧
    (t.files.file 0).ref = tally (fun x : Fin 2 × Fin nOFile => (t.proc x.1).ofile x.2) 0 ∧
    (t.files.kallocs 7 = t.files.kfrees 7 + if (t.files.pipe 7).isSome then 1 else 0) := by
  have hstart : Reaches (boot 3 : Kernel 1 Nat) := .boot 3
  have henabled : Enabled (boot 3 : Kernel 1 Nat) (.pipe 0 (some 7) (true, true)) := ⟨rfl, fun _ _ => rfl⟩
  obtain ⟨t, ht⟩ := (open_file_lifetimes hstart).2.2.2.2.2.2.2 _ henabled (by simp)
  have hlater := open_file_lifetimes (.call _ hstart henabled ht)
  exact ⟨t, ht, hlater.1 0, hlater.2.2.2.2.1 7⟩

end Run

end Xv6.FileReferences
