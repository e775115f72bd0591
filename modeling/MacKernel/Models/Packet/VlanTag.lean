import MacKernel.Models.Packet.Boundary
import MacKernel.Models.Packet.Options

/-!
# The VLAN tag of a packet

The tag is a field of the option block, and whether it is in the packet is a flag in a
word that all options share. `__packet_set_vlan_tag` stores the tag but only ever sets
the flag, so the latest call is read back exactly when no earlier one left it set.
-/

namespace MacKernel.Packet

variable {P : Type} [PacketOpts P]

/-- A sequence of `__packet_set_vlan_tag` calls, each with its tag and `tag_in_pkt`. -/
def setVlanTags (ph : P) (calls : List (BitVec 16 × BitVec 32)) : P :=
  calls.foldl (fun ph call => (packetSetVlanTag ph call.1 call.2).2) ph

/-- The flags that belong to the VLAN tag. -/
def vlanFlags : BitVec 64 := pktFOptVltag ||| pktFOptVltagInPkt

/-- The flags and the block of a packet agree outside the VLAN tag. -/
structure SameOtherOptions (ph ph' : P) : Prop where
  pflags : pflags ph' &&& ~~~vlanFlags = pflags ph &&& ~~~vlanFlags
  po : poVlanTag.set 0 (po ph') = poVlanTag.set 0 (po ph)

/-- The pair of the latest call is read back, with `tag_in_pkt` as a truth value, and the calls
change no other option. -/
def VlanTagRead (ph : P) (earlier : List (BitVec 16 × BitVec 32)) (tag : BitVec 16)
    (inPkt : BitVec 32) : Prop :=
  (∀ tag₀ inPkt₀, ∃ read, (read ≠ 0 ↔ inPkt ≠ 0) ∧
    packetGetVlanTag (setVlanTags ph (earlier ++ [(tag, inPkt)])) (some tag₀) (some inPkt₀) =
      (.success, some tag, some read)) ∧
  SameOtherOptions ph (setVlanTags ph (earlier ++ [(tag, inPkt)]))

section Step

/-- The flags after one call. -/
theorem pflags_packetSetVlanTag (ph : P) (tag : BitVec 16) (inPkt : BitVec 32) :
    pflags (packetSetVlanTag ph tag inPkt).2 =
      pflags ph ||| pktFOptVltag ||| if inPkt ≠ 0 then pktFOptVltagInPkt else 0 := by
  by_cases h : inPkt ≠ 0
  · simp only [packetSetVlanTag, if_pos h, PacketOpts.pflags_setPflags, PacketOpts.pflags_setPo]
  · simp only [packetSetVlanTag, if_neg h, PacketOpts.pflags_setPflags, PacketOpts.pflags_setPo]
    exact BitVec.or_zero.symm

private theorem po_packetSetVlanTag (ph : P) (tag : BitVec 16) (inPkt : BitVec 32) :
    po (packetSetVlanTag ph tag inPkt).2 = poVlanTag.set tag (po ph) := by
  by_cases h : inPkt ≠ 0
  · simp only [packetSetVlanTag, if_pos h, PacketOpts.po_setPflags, PacketOpts.po_setPo]
  · simp only [packetSetVlanTag, if_neg h, PacketOpts.po_setPflags, PacketOpts.po_setPo]

/-- The flag behind `tag_in_pkt` after one call: set by it, or as before. -/
theorem inPkt_packetSetVlanTag (ph : P) (tag : BitVec 16) (inPkt : BitVec 32) :
    pflags (packetSetVlanTag ph tag inPkt).2 &&& pktFOptVltagInPkt = 0 ↔
      pflags ph &&& pktFOptVltagInPkt = 0 ∧ inPkt = 0 := by
  have htag : pktFOptVltag &&& pktFOptVltagInPkt = 0 := by decide
  rw [pflags_packetSetVlanTag]
  by_cases h : inPkt = 0
  · have hzero : (0 : BitVec 64) &&& pktFOptVltagInPkt = 0 := by decide
    rw [if_neg (not_not.mpr h), or_flag_and_of_disjoint hzero, or_flag_and_of_disjoint htag]
    exact (and_iff_left h).symm
  · have hflag : pktFOptVltagInPkt ≠ 0 := by decide
    rw [if_pos h, or_flag_and_self]
    exact iff_of_false hflag fun hboth => h hboth.2

/-- What the getter returns after a call: its tag, and the flag as it is then. -/
theorem packetGetVlanTag_set (ph : P) (tag : BitVec 16) (inPkt : BitVec 32) (tag₀ : BitVec 16)
    (inPkt₀ : BitVec 32) :
    packetGetVlanTag (packetSetVlanTag ph tag inPkt).2 (some tag₀) (some inPkt₀) =
      (.success, some tag, some
        (if pflags (packetSetVlanTag ph tag inPkt).2 &&& pktFOptVltagInPkt ≠ 0 then 1 else 0)) := by
  have hset : pflags (packetSetVlanTag ph tag inPkt).2 &&& pktFOptVltag ≠ 0 := by
    have hdisjoint : (if inPkt ≠ 0 then pktFOptVltagInPkt else 0) &&& pktFOptVltag = 0 := by
      split <;> decide
    rw [pflags_packetSetVlanTag, or_flag_and_of_disjoint hdisjoint, or_flag_and_self]
    decide
  rw [packetGetVlanTag, if_neg hset, Option.map_some, Option.map_some, po_packetSetVlanTag,
    Field.get_set_self]

theorem SameOtherOptions.refl (ph : P) : SameOtherOptions ph ph := ⟨rfl, rfl⟩

theorem SameOtherOptions.trans {ph₁ ph₂ ph₃ : P} (h : SameOtherOptions ph₁ ph₂)
    (h' : SameOtherOptions ph₂ ph₃) : SameOtherOptions ph₁ ph₃ :=
  ⟨h'.pflags.trans h.pflags, h'.po.trans h.po⟩

/-- One call changes no other option. -/
theorem sameOtherOptions_packetSetVlanTag (ph : P) (tag : BitVec 16) (inPkt : BitVec 32) :
    SameOtherOptions ph (packetSetVlanTag ph tag inPkt).2 := by
  constructor
  · have htag : pktFOptVltag &&& ~~~vlanFlags = 0 := by decide
    have hin : (if inPkt ≠ 0 then pktFOptVltagInPkt else 0) &&& ~~~vlanFlags = 0 := by
      split <;> decide
    rw [pflags_packetSetVlanTag, or_flag_and_of_disjoint hin, or_flag_and_of_disjoint htag]
  · rw [po_packetSetVlanTag]
    apply BitVec.eq_of_getLsbD_eq
    intro i _
    simp only [Field.getLsbD_set]
    split <;> rfl

end Step

section Runs

/-- After a run the flag behind `tag_in_pkt` is clear exactly when it was before and no call
set it. -/
theorem inPkt_setVlanTags (ph : P) (calls : List (BitVec 16 × BitVec 32)) :
    pflags (setVlanTags ph calls) &&& pktFOptVltagInPkt = 0 ↔
      pflags ph &&& pktFOptVltagInPkt = 0 ∧ ∀ call ∈ calls, call.2 = 0 := by
  induction calls generalizing ph with
  | nil => simp [setVlanTags]
  | cons call calls ih =>
    have hcons : setVlanTags ph (call :: calls) =
        setVlanTags (packetSetVlanTag ph call.1 call.2).2 calls := rfl
    rw [hcons, ih, inPkt_packetSetVlanTag, List.forall_mem_cons, and_assoc]

/-- A run changes no other option. -/
theorem sameOtherOptions_setVlanTags (ph : P) (calls : List (BitVec 16 × BitVec 32)) :
    SameOtherOptions ph (setVlanTags ph calls) := by
  induction calls generalizing ph with
  | nil => exact .refl ph
  | cons call calls ih => exact (sameOtherOptions_packetSetVlanTag ph _ _).trans (ih _)

private theorem setVlanTags_snoc (ph : P) (calls : List (BitVec 16 × BitVec 32)) (tag : BitVec 16)
    (inPkt : BitVec 32) :
    setVlanTags ph (calls ++ [(tag, inPkt)]) =
      (packetSetVlanTag (setVlanTags ph calls) tag inPkt).2 := by
  rw [setVlanTags, List.foldl_append]
  rfl

/-- The latest VLAN tag and its `tag_in_pkt` are read back after any calls exactly when the
latest call sets the flag, or no earlier call did and it was clear at the start. -/
theorem vlanTagRead_iff (ph : P) (earlier : List (BitVec 16 × BitVec 32)) (tag : BitVec 16)
    (inPkt : BitVec 32) :
    VlanTagRead ph earlier tag inPkt ↔
      inPkt ≠ 0 ∨ (pflags ph &&& pktFOptVltagInPkt = 0 ∧ ∀ call ∈ earlier, call.2 = 0) := by
  have hsnoc := setVlanTags_snoc ph earlier tag inPkt
  have hin : pflags (setVlanTags ph (earlier ++ [(tag, inPkt)])) &&& pktFOptVltagInPkt = 0 ↔
      (pflags ph &&& pktFOptVltagInPkt = 0 ∧ ∀ call ∈ earlier, call.2 = 0) ∧ inPkt = 0 := by
    rw [hsnoc, inPkt_packetSetVlanTag, inPkt_setVlanTags]
  have hget (tag₀ : BitVec 16) (inPkt₀ : BitVec 32) :
      packetGetVlanTag (setVlanTags ph (earlier ++ [(tag, inPkt)])) (some tag₀) (some inPkt₀) =
        (.success, some tag, some (if
          pflags (setVlanTags ph (earlier ++ [(tag, inPkt)])) &&& pktFOptVltagInPkt ≠ 0
          then 1 else 0)) := by
    rw [hsnoc, packetGetVlanTag_set]
  constructor
  · rintro ⟨hread, -⟩
    obtain ⟨read, hiff, heq⟩ := hread 0 0
    rw [hget] at heq
    obtain rfl : _ = read := Option.some.inj (congrArg (fun r => r.2.2) heq)
    by_contra hno
    obtain ⟨hzero, hset'⟩ := not_or.mp hno
    -- the flag is left from an earlier call, so a tag that is not in the packet is read as in it
    have hflag := mt hin.mp fun h => hset' h.1
    rw [if_pos hflag] at hiff
    exact hzero (hiff.mp (by decide))
  · intro hcond
    refine ⟨fun tag₀ inPkt₀ => ⟨_, ?_, hget tag₀ inPkt₀⟩, sameOtherOptions_setVlanTags _ _⟩
    have hiff : pflags (setVlanTags ph (earlier ++ [(tag, inPkt)])) &&& pktFOptVltagInPkt ≠ 0 ↔
        inPkt ≠ 0 := by
      rw [ne_eq, hin, not_and]
      constructor
      · intro h
        exact hcond.elim id h
      · intro h _
        exact h
    rw [← hiff]
    split
    · next hflag => exact iff_of_true (by decide) hflag
    · next hflag => exact iff_of_false (by decide) hflag

/-- A tag in the packet, then one that is not: the second is read back as in the packet. -/
theorem vlanTagRead_fails : ¬VlanTagRead zeroUserPacket [(5, 1)] 7 0 := by
  rintro ⟨hread, -⟩
  obtain ⟨read, hiff, heq⟩ := hread 0 0
  have hget : packetGetVlanTag (setVlanTags zeroUserPacket [(5, 1), (7, 0)]) (some 0) (some 0) =
      (.success, some 7, some 1) := by decide
  obtain rfl : 1 = read :=
    Option.some.inj (congrArg (fun r => r.2.2) (hget.symm.trans heq))
  exact hiff.mp (by decide) rfl

end Runs

end MacKernel.Packet
