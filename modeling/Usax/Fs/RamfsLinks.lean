import Mathlib.Algebra.BigOperators.Group.Finset.Piecewise
import Mathlib.Algebra.Order.BigOperators.Group.Finset
import Mathlib.Data.List.Count
import Usax.Fs.RamfsRuns

/-!
# Counts of links

`refs` counts the entries of all directories for an inode. `Counted leak` says that the links of an inode are its
entries, and `leak` more: a `mkdir` that fails late leaves a link of the parent directory behind. Each change of the inodes keeps
it.
-/

namespace Usax.Fs

open Common Lib Relation

namespace Inodes

variable {n : Inodes} {i j d : InodePtr} {e : Entry} {x : Inode} {leak : InodePtr → Nat}

def refs (n : Inodes) (i : InodePtr) : Nat :=
  ∑ d ∈ Finset.range n.nextInodeNum, (n.ents d).countP fun e => e.inode = i

theorem refs_pos (hf : n.Fresh) (he : e ∈ n.ents d) : 0 < n.refs e.inode := by
  have hd : d < n.nextInodeNum := by
    apply hf
    cases hx : n.inode d with
    | none => simp [ents, hx] at he
    | some x => exact ⟨x, hx⟩
  have h1 : 0 < (n.ents d).countP fun e' => e'.inode = e.inode := List.countP_pos_iff.mpr ⟨e, he, by simp⟩
  exact h1.trans_le (Finset.single_le_sum (f := fun d => (n.ents d).countP fun e' => e'.inode = e.inode)
    (fun _ _ => Nat.zero_le _) (Finset.mem_range.mpr hd))

theorem refs_eq_zero (h : ∀ d, ∀ e ∈ n.ents d, e.inode ≠ i) : n.refs i = 0 :=
  Finset.sum_eq_zero fun d _ => List.countP_eq_zero.mpr fun e he => by simpa using h d e he

theorem refs_link (hf : n.Fresh) (hd : n.Live d) : (n.link d e).refs i = n.refs i + if e.inode = i then 1 else 0 := by
  unfold refs
  have hsum : ∀ j, ((n.link d e).ents j).countP (fun e => e.inode = i) =
      (n.ents j).countP (fun e => e.inode = i) + if j = d then (if e.inode = i then 1 else 0) else 0 := by
    intro j
    rw [ents_link hd, List.countP_append]
    split_ifs <;> simp [*]
  simp only [hsum, Finset.sum_add_distrib, Finset.sum_ite_eq', Finset.mem_range]
  rw [if_pos (show d < (n.link d e).nextInodeNum from hf d hd)]
  rfl

theorem refs_unlink (hf : n.Fresh) (he : e ∈ n.ents d) :
    n.refs i = (n.unlink d e).refs i + if e.inode = i then 1 else 0 := by
  have hd : n.Live d := by
    cases hx : n.inode d with
    | none => simp [ents, hx] at he
    | some x => exact ⟨x, hx⟩
  unfold refs
  have hsum : ∀ j, (n.ents j).countP (fun e => e.inode = i) =
      ((n.unlink d e).ents j).countP (fun e => e.inode = i) + if j = d then (if e.inode = i then 1 else 0) else 0 := by
    intro j
    rw [ents_unlink]
    split_ifs with hj hi
    · subst hj
      rw [(List.perm_cons_erase he).countP_eq]
      simp [hi]
    · subst hj
      rw [(List.perm_cons_erase he).countP_eq]
      simp [hi]
    · rfl
  simp only [hsum, Finset.sum_add_distrib, Finset.sum_ite_eq', Finset.mem_range]
  rw [if_pos (show d < n.nextInodeNum from hf d hd)]
  rfl

theorem refs_new (hx : x.Blank) : (n.new x).refs i = n.refs i := by
  unfold refs
  have hnext : (n.new x).nextInodeNum = n.nextInodeNum + 1 := rfl
  rw [hnext, Finset.sum_range_succ, ents_new, if_pos rfl, hx.entriesList, List.countP_nil, Nat.add_zero]
  refine Finset.sum_congr rfl fun j hj => ?_
  rw [ents_new, if_neg (Finset.mem_range.mp hj).ne]

theorem refs_free (h : n.ents j = []) : (n.free j).refs i = n.refs i := by
  refine Finset.sum_congr rfl fun d _ => ?_
  rw [ents_free]
  split_ifs with hd
  · rw [hd, h]
  · rfl

theorem refs_touch {mode refCount : Inode → Nat} : (n.touch j mode refCount).refs i = n.refs i :=
  Finset.sum_congr rfl fun d _ => by rw [ents_touch]

/-- The links of an inode are its entries, and `leak` more. -/
def Counted (leak : InodePtr → Nat) (n : Inodes) : Prop := ∀ i, n.Live i → n.nlinkOf i = n.refs i + leak i

theorem Counted.touch {mode refCount : Inode → Nat} (h : n.Counted leak) : (n.touch j mode refCount).Counted leak := by
  intro i hi
  rw [nlinkOf_touch, refs_touch]
  exact h i (live_touch.mp hi)

theorem Counted.link (h : n.Counted leak) (hf : n.Fresh) (hd : n.Live d) (he : n.Live e.inode) :
    (n.link d e).Counted leak := by
  intro i hi
  rw [nlinkOf_link he, refs_link hf hd, h i (live_link.mp hi)]
  simp only [eq_comm (a := i)]
  omega

theorem Counted.unlink (h : n.Counted leak) (hf : n.Fresh) (he : e ∈ n.ents d) : (n.unlink d e).Counted leak := by
  intro i hi
  have := h i (live_unlink.mp hi)
  rw [refs_unlink hf he] at this
  rw [nlinkOf_unlink, this]
  simp only [eq_comm (a := i)]
  omega

theorem Counted.new (h : n.Counted leak) (hx : x.Blank) (h₀ : n.refs n.nextInodeNum = 0) (hl : leak n.nextInodeNum = 0) :
    (n.new x).Counted leak := by
  intro i hi
  rw [nlinkOf_new, refs_new hx]
  split_ifs with hi'
  · rw [hi', hx.nlink, h₀, hl]
  · exact h i ((live_new.mp hi).resolve_left hi')

theorem Counted.free (h : n.Counted leak) (hj : n.ents j = []) : (n.free j).Counted leak := by
  intro i hi
  obtain ⟨hne, hi⟩ := live_free.mp hi
  rw [nlinkOf_free hne, refs_free hj]
  exact h i hi

end Inodes

end Usax.Fs
