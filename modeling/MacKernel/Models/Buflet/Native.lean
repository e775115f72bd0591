import MacKernel.Core.Fields
import MacKernel.Core.Run

/-!
# Buflets of `skywalk/packet`

`struct __buflet` is a packed image of 36 bytes, the common part of user and kernel
buflets; a kernel buflet continues with the pointer to its buffer control. The
macros store field by field or copy whole words, as in the source. `ASSERT` is
checked, as in development builds.
-/

namespace MacKernel

/-- `ASSERT`. -/
def kassert (p : Prop) [Decidable p] : Except Fault Unit :=
  if p then .ok () else .error .assertFailed

@[simp] theorem kassert_eq_ok {p : Prop} [Decidable p] {u : Unit} : kassert p = .ok u ↔ p := by
  unfold kassert
  split <;> simp [*]

theorem kassert_of {p : Prop} [Decidable p] (h : p) : kassert p = .ok () := if_pos h

theorem kassert_ne_nullDeref {p : Prop} [Decidable p] : kassert p ≠ .error .nullDeref := by
  unfold kassert
  split <;> simp

namespace Buflet

/-- `OBJ_IDX_NONE`. -/
def objIdxNone : BitVec 32 := 0xffffffff

/-- `BUFLET_FLAG_EXTERNAL`. -/
def bufletFlagExternal : BitVec 16 := 0x0001

/-- `struct __buflet`, which is also `struct __user_buflet`. -/
abbrev BufletCom := BitVec 288

section Layout

/-- `buf_nbft_addr`: address of the next buflet in the chain. -/
def bufNbftAddr : Field 288 64 := ⟨0, by decide⟩

/-- `buf_addr`: buffer data address. -/
def bufAddr : Field 288 64 := ⟨64, by decide⟩

/-- `buf_bft_idx_reg`: index of the buflet in the buflet region. -/
def bufBftIdxReg : Field 288 32 := ⟨128, by decide⟩

/-- `buf_idx`: index of the buffer in the buffer region. -/
def bufIdx : Field 288 32 := ⟨160, by decide⟩

/-- `buf_nbft_idx`: index of the next buflet. -/
def bufNbftIdx : Field 288 32 := ⟨192, by decide⟩

/-- `buf_dlim`: maximum length. -/
def bufDlim : Field 288 16 := ⟨224, by decide⟩

/-- `buf_dlen`: length of the data. -/
def bufDlen : Field 288 16 := ⟨240, by decide⟩

/-- `buf_doff`: offset of the data. -/
def bufDoff : Field 288 16 := ⟨256, by decide⟩

/-- `buf_flag`. -/
def bufFlag : Field 288 16 := ⟨272, by decide⟩

/-- `struct __kern_buflet`. -/
@[ext] structure KernBuflet where
  com : BufletCom
  /-- `buf_ctl`. -/
  ctl : BitVec 64
  deriving DecidableEq, Repr

/-- The 44 bytes of a kernel buflet. -/
def KernBuflet.image (k : KernBuflet) : BitVec 352 := k.ctl ++ k.com

/-- The kernel buflet in 44 bytes. -/
def KernBuflet.ofImage (x : BitVec 352) : KernBuflet where
  com := x.extractLsb' 0 288
  ctl := x.extractLsb' 288 64

/-- Element 10 of a kernel buflet as an array of `uint32_t`. -/
def bufletWord10 : Field 352 32 := ⟨320, by decide⟩

end Layout

section Macros

/-- `BUF_CTOR`. -/
def bufCtor (baddr : BitVec 64) (bidx : BitVec 32) (dlim dlen doff : BitVec 16)
    (nbaddr : BitVec 64) (nbidx : BitVec 32) (bflag : BitVec 16) (buf : BufletCom) : BufletCom :=
  let buf := bufAddr.set baddr buf
  let buf := bufNbftAddr.set nbaddr buf
  let buf := bufIdx.set bidx buf
  let buf := bufNbftIdx.set nbidx buf
  let buf := bufDlim.set dlim buf
  let buf := bufDlen.set dlen buf
  let buf := bufDoff.set doff buf
  bufFlag.set bflag buf

/-- `BUF_INIT`. -/
def bufInit (dlen doff : BitVec 16) (buf : BufletCom) : BufletCom :=
  bufDoff.set doff (bufDlen.set dlen buf)

/-- The stores of `KBUF_CTOR` before the use of the buffer control is counted. -/
def kbufCtorStore (baddr : BitVec 64) (bidx : BitVec 32) (bc : BitVec 64)
    (bufletSize : BitVec 16) (k : KernBuflet) : KernBuflet where
  com := bufCtor baddr bidx bufletSize 0 0 (bufNbftAddr.get k.com) (bufNbftIdx.get k.com)
    (bufFlag.get k.com) k.com
  ctl := bc

/-- The stores of `KBUF_DTOR` after the use of the buffer control has been dropped. -/
def kbufDtorStore (k : KernBuflet) : KernBuflet where
  com := bufIdx.set objIdxNone (bufAddr.set 0 k.com)
  ctl := 0

/-- The copy of `_KBUF_COPY`: forty bytes, the four bytes behind them, and the flags. -/
def kbufCopyStore (skb dkb : KernBuflet) : KernBuflet :=
  let x := copyWords 5 skb.image dkb.image
  let x := bufletWord10.set (bufletWord10.get skb.image) x
  let k := KernBuflet.ofImage x
  { k with com := bufFlag.set (bufFlag.get k.com &&& ~~~bufletFlagExternal) k.com }

/-- `UBUF_INIT`. -/
def ubufInit (kbuf : KernBuflet) (ubuf : BufletCom) : BufletCom :=
  let ubuf := bufCtor 0 (bufIdx.get kbuf.com) (bufDlim.get kbuf.com) (bufDlen.get kbuf.com)
    (bufDoff.get kbuf.com) (bufNbftAddr.get kbuf.com) (bufNbftIdx.get kbuf.com)
    (bufFlag.get kbuf.com) ubuf
  bufBftIdxReg.set (bufBftIdxReg.get kbuf.com) ubuf

/-- `KBUF_EXTERNALIZE`; `objaddr` gives the `bc_addr` of a buffer control. -/
def kbufExternalize (objaddr : BitVec 64 → BitVec 64) (bufletSize : BitVec 16)
    (kbuf : KernBuflet) (ubuf : BufletCom) : Except Fault BufletCom := do
  kassert (bufDlim.get kbuf.com = bufletSize)
  kassert (bufAddr.get kbuf.com ≠ 0)
  if kbuf.ctl = 0 then .error .nullDeref
  else
    kassert (bufAddr.get kbuf.com = objaddr kbuf.ctl)
    return ubufInit kbuf ubuf

end Macros

section Image

private theorem KernBuflet.getLsbD_image (k : KernBuflet) (i : Nat) :
    k.image.getLsbD i = if i < 288 then k.com.getLsbD i else k.ctl.getLsbD (i - 288) := by
  rw [KernBuflet.image, BitVec.getLsbD_append]

@[simp] theorem KernBuflet.ofImage_image (k : KernBuflet) : ofImage k.image = k := by
  ext1
  · apply BitVec.eq_of_getLsbD_eq
    intro i hi
    rw [ofImage, BitVec.getLsbD_extractLsb', getLsbD_image, Nat.zero_add, if_pos hi]
    simp [hi]
  · apply BitVec.eq_of_getLsbD_eq
    intro i hi
    rw [ofImage, BitVec.getLsbD_extractLsb', getLsbD_image, if_neg (by omega)]
    simp [hi]

/-- The two copies of `_KBUF_COPY` cover all 44 bytes. -/
theorem copy_image (src dst : BitVec 352) :
    bufletWord10.set (bufletWord10.get src) (copyWords 5 src dst) = src := by
  apply BitVec.eq_of_getLsbD_eq
  intro i hi
  rw [Field.getLsbD_set, Field.getLsbD_get, getLsbD_copyWords (by decide)]
  change (if 320 ≤ i ∧ i < 320 + 32 then _ && src.getLsbD (320 + (i - 320))
    else if i < 320 then _ else _) = _
  by_cases h : i < 320
  · rw [if_neg (by omega), if_pos h]
  · have hlo : i - bufletWord10.off < 32 := by
      change i - 320 < 32
      omega
    rw [if_pos (by omega), decide_eq_true hlo, Bool.true_and, Nat.add_sub_of_le (by omega)]

/-- The copy equals its source but for the flag that marks an external buflet. -/
theorem kbufCopyStore_eq (skb dkb : KernBuflet) : kbufCopyStore skb dkb =
    { skb with com := bufFlag.set (bufFlag.get skb.com &&& ~~~bufletFlagExternal) skb.com } := by
  simp only [kbufCopyStore, copy_image, KernBuflet.ofImage_image]

end Image

end Buflet

end MacKernel
