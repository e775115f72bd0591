import MacKernel.Models.ControlMessage.Native
import Mathlib.Logic.Relation

/-!
# Control messages that are not trusted

A walk over ancillary data with any contents. `CMSG_NXTHDR` keeps the header that it returns
inside the data, but it does not ask for a length that covers the header in front of it: a
header of length zero is its own successor.
-/

namespace MacKernel.ControlMessage

variable {m : Memory 64} {mhdr : Msghdr} {cmsg next : BitVec 64} {len : UInt32}

/-- A step of a walk from a header to the next one. -/
def Advances (m : Memory 64) (mhdr : Msghdr) (cmsg next : BitVec 64) : Prop :=
  cmsg ≠ 0 ∧ cmsgNxthdr m mhdr cmsg = .ok next

/-- The pointers that a walk comes to. -/
def Reached (m : Memory 64) (mhdr : Msghdr) : BitVec 64 → Prop :=
  Relation.ReflTransGen (Advances m mhdr) (cmsgFirsthdr mhdr)

/-- A header inside the ancillary data. -/
structure Inside (mhdr : Msghdr) (cmsg : BitVec 64) : Prop where
  nonnull : cmsg ≠ 0
  behind : mhdr.control.toNat ≤ cmsg.toNat
  fits : cmsg.toNat + 12 ≤ mhdr.stop

/-- The bytes that a walk has in front of it. -/
def remaining (mhdr : Msghdr) (cmsg : BitVec 64) : Nat :=
  if cmsg = 0 then 0 else mhdr.stop - cmsg.toNat

/-- Ancillary data that can be read. Its contents are not trusted: any length may stand in a
header, so there are `2 ^ 32` more addresses behind the data. -/
structure Readable (m : Memory 64) (mhdr : Msghdr) : Prop where
  mapped : ∀ a : BitVec 64, mhdr.control.toNat ≤ a.toNat → a.toNat < mhdr.stop → (m a).isSome
  fits : mhdr.stop + 2 ^ 32 < 2 ^ 64

section Headers

private theorem foreachPass_advances (hadv : Advances m mhdr cmsg next) (acc : List (BitVec 64)) :
    foreachPass m mhdr .ok (cmsg, acc) = .ok (.inl (next, acc ++ [cmsg])) := by
  simp only [foreachPass, if_neg hadv.1, hadv.2, ok_bind]
  rfl

private theorem inside_cmsgFirsthdr (hne : cmsgFirsthdr mhdr ≠ 0) :
    Inside mhdr (cmsgFirsthdr mhdr) := by
  rw [cmsgFirsthdr_eq] at hne ⊢
  split at hne
  · next hle =>
    rw [if_pos hle]
    exact ⟨hne, le_rfl, by unfold Msghdr.stop; omega⟩
  · exact absurd rfl hne

variable (h : Readable m mhdr)

include h

/-- The length of a header inside the data can be read. -/
theorem Readable.length (hin : Inside mhdr cmsg) : ∃ len, cmsgLenField m cmsg = .ok len := by
  have hfits := h.fits
  have hend := hin.fits
  have hbehind := hin.behind
  refine Memory.readU32_ok fun i hi => h.mapped _ ?_ ?_ <;>
    rw [BitVec.toNat_add, BitVec.toNat_ofNat, Nat.mod_eq_of_lt (by omega : i < 2 ^ 64),
      Nat.mod_eq_of_lt (by omega)] <;> omega

theorem Readable.bound (hin : Inside mhdr cmsg) : cmsg.toNat + claimed len + 12 < 2 ^ 64 := by
  have hlt := len.toNat_lt
  have hfits := h.fits
  have hend := hin.fits
  unfold claimed
  omega

/-- A walk goes from a header to one inside the data, which stands as far behind it as the
length of the first says, or to `NULL`. -/
theorem Readable.advances (hin : Inside mhdr cmsg) (hlen : cmsgLenField m cmsg = .ok len)
    (hnext : cmsgNxthdr m mhdr cmsg = .ok next) :
    next = 0 ∨ Inside mhdr next ∧ next.toNat = cmsg.toNat + claimed len := by
  have hfits := h.fits
  have hbehind := hin.behind
  have hbound : cmsg.toNat + claimed len + 12 < 2 ^ 64 := h.bound hin
  rw [cmsgNxthdr_eq hbound hin.nonnull (by omega) hlen] at hnext
  obtain rfl := Except.ok.inj hnext
  split
  · exact .inl rfl
  · next hnot =>
    have hadd := toNat_add_claimed hbound
    have hnull := ne_zero_of_toNat_le hin.nonnull (hadd ▸ Nat.le_add_right _ _)
    exact .inr ⟨⟨hnull, by omega, by omega⟩, hadd⟩

/-- All headers that a walk comes to are inside the data. -/
theorem Readable.inside (hreached : Reached m mhdr cmsg) (hne : cmsg ≠ 0) : Inside mhdr cmsg := by
  induction hreached with
  | refl => exact inside_cmsgFirsthdr hne
  | tail _ hadv ih =>
    have hin := ih hadv.1
    obtain ⟨len, hlen⟩ := h.length hin
    rcases h.advances hin hlen hadv.2 with hzero | ⟨hnext, -⟩
    · exact absurd hzero hne
    · exact hnext

end Headers

section Termination

variable (h : Readable m mhdr)

include h

/-- A header of length zero is its own successor. -/
theorem Readable.stuck (hin : Inside mhdr cmsg) (hzero : cmsgLenField m cmsg = .ok 0) :
    cmsgNxthdr m mhdr cmsg = .ok cmsg := by
  have hfits := h.fits
  have hend := hin.fits
  have hclaimed : claimed 0 = 0 := rfl
  have halign : darwinAlign32 (BitVec.ofNat 64 (0 : UInt32).toNat) = 0#64 := rfl
  rw [cmsgNxthdr_eq (h.bound hin) hin.nonnull (by omega) hzero, if_neg (by omega), halign,
    BitVec.add_zero]

/-- A walk that will come to a header of length zero does not end. -/
theorem Readable.diverges {start : BitVec 64} (hin : Inside mhdr cmsg)
    (hzero : cmsgLenField m cmsg = .ok 0)
    (hpath : Relation.ReflTransGen (Advances m mhdr) start cmsg) (fuel : Nat)
    (acc : List (BitVec 64)) :
    loop (foreachPass m mhdr .ok) fuel (start, acc) = .error .diverged := by
  have hself : Advances m mhdr cmsg cmsg := ⟨hin.nonnull, h.stuck hin hzero⟩
  induction fuel generalizing start acc with
  | zero => rfl
  | succ fuel ih =>
    rcases hpath.cases_head with rfl | ⟨next, hadv, hrest⟩
    · rw [loop_again fuel (foreachPass_advances hself acc)]
      exact ih .refl _
    · rw [loop_again fuel (foreachPass_advances hadv acc)]
      exact ih hrest _

/-- A header of another length takes a walk forward. -/
theorem Readable.remaining_lt (hin : Inside mhdr cmsg) (hpos : cmsgLenField m cmsg ≠ .ok 0)
    (hadv : Advances m mhdr cmsg next) : remaining mhdr next < remaining mhdr cmsg := by
  obtain ⟨len, hlen⟩ := h.length hin
  have hend := hin.fits
  have hne : len.toNat ≠ 0 := by
    intro heq
    rw [hlen] at hpos
    exact hpos (congrArg Except.ok (UInt32.toNat.inj heq))
  unfold remaining
  rw [if_neg hin.nonnull]
  rcases h.advances hin hlen hadv.2 with rfl | ⟨hnext, hadd⟩
  · rw [if_pos rfl]
    omega
  · have hfits := hnext.fits
    rw [if_neg hnext.nonnull]
    unfold claimed at hadd
    omega

/-- A pass over a header leads on. -/
theorem Readable.exists_advances (hreached : Reached m mhdr cmsg) (hne : cmsg ≠ 0) :
    ∃ next, Advances m mhdr cmsg next := by
  have hin := h.inside hreached hne
  have hfits := h.fits
  obtain ⟨len, hlen⟩ := h.length hin
  exact ⟨_, hne, cmsgNxthdr_eq (h.bound hin) hne (by omega) hlen⟩

/-- A walk without headers of length zero takes no more passes than there are bytes. -/
theorem Readable.ends
    (hpos : ∀ cmsg, Reached m mhdr cmsg → cmsg ≠ 0 → cmsgLenField m cmsg ≠ .ok 0) {fuel : Nat}
    (hfuel : mhdr.controllen.toNat < fuel) :
    ∃ headers, foreachCmsg m mhdr .ok fuel = .ok headers := by
  let inv (bound : Nat) (s : BitVec 64 × List (BitVec 64)) : Prop :=
    Reached m mhdr s.1 ∧ remaining mhdr s.1 = bound
  have hpass : ∀ bound s, inv bound s →
      (∃ s' bound', bound' < bound ∧ foreachPass m mhdr .ok s = .ok (.inl s') ∧ inv bound' s') ∨
        ∃ r, foreachPass m mhdr .ok s = .ok (.inr r) ∧ True := by
    rintro bound ⟨cmsg, acc⟩ ⟨hreached, rfl⟩
    by_cases hne : cmsg = 0
    · subst hne
      exact .inr ⟨acc, rfl, trivial⟩
    · obtain ⟨next, hadv⟩ := h.exists_advances hreached hne
      exact .inl ⟨_, _, h.remaining_lt (h.inside hreached hne) (hpos cmsg hreached hne) hadv,
        foreachPass_advances hadv acc, hreached.tail hadv, rfl⟩
  have hfirst : remaining mhdr (cmsgFirsthdr mhdr) ≤ mhdr.controllen.toNat := by
    unfold remaining
    split
    · exact Nat.zero_le _
    · next hne =>
      have hbehind := (inside_cmsgFirsthdr hne).behind
      unfold Msghdr.stop
      omega
  obtain ⟨headers, hends, -⟩ := loop_spec inv (fun _ => True) hpass
    (s := (cmsgFirsthdr mhdr, [])) ⟨.refl, rfl⟩ (hfirst.trans_lt hfuel)
  exact ⟨headers, hends⟩

/-- A walk over data that can be read stays inside it, and ends exactly when it comes to no
header of length zero. -/
theorem walk_ends_iff :
    (∀ cmsg, Reached m mhdr cmsg → cmsg ≠ 0 → Inside mhdr cmsg) ∧
      ((∃ fuel headers, foreachCmsg m mhdr .ok fuel = .ok headers) ↔
        ∀ cmsg, Reached m mhdr cmsg → cmsg ≠ 0 → cmsgLenField m cmsg ≠ .ok 0) := by
  refine ⟨fun cmsg hreached hne => h.inside hreached hne, ?_, ?_⟩
  · rintro ⟨fuel, headers, hends⟩ cmsg hreached hne hzero
    have hloop := h.diverges (h.inside hreached hne) hzero hreached fuel []
    rw [foreachCmsg, hloop] at hends
    cases hends
  · intro hpos
    exact ⟨_, h.ends hpos (Nat.lt_succ_self _)⟩

end Termination

/-- A walk over one header of zeros does not end. -/
theorem walk_ends_iff_zeroed :
    let m := Memory.ofBuffer 0x1000 (List.replicate 12 0)
    let mhdr : Msghdr := ⟨0x1000, 12⟩
    Readable m mhdr ∧ ¬ ∃ fuel headers, foreachCmsg m mhdr .ok fuel = .ok headers := by
  intro m mhdr
  have hreadable : Readable m mhdr :=
    ⟨fun a hlo hhi => Memory.ofBuffer_isSome hlo (by rw [List.length_replicate]; exact hhi),
      by decide⟩
  refine ⟨hreadable, fun hends => ?_⟩
  exact (walk_ends_iff hreadable).2.mp hends 0x1000 .refl (by decide) rfl

end MacKernel.ControlMessage
