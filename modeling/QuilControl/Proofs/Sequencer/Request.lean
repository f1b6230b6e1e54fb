import QuilControl.Proofs.Scalar.Rounding
import QuilControl.Sequencer.SubRegion

/-!
# What a request for draws carries

A copy of drawn sub-regions is asked for by a call with the names of its regions and the size of a sub-region.
The size is passed as a number, and numbers are doubles. So requests with the same call agree in the names of
their regions, and in their sizes as far as 53 bits go (`SubRegionDraw.eq_of_call_beq`).
-/

namespace QuilControl

section Arguments

variable {N : Type} [BEq N]

@[simp]
theorem CallArgument.identifier_beq_iff {name name' : String} :
    ((identifier name : CallArgument N) == identifier name') = true ↔ name = name' := by
  change (name == name') = true ↔ _
  exact beq_iff_eq

@[simp]
theorem CallArgument.immediate_beq_iff {v v' : N} : (immediate v == immediate v') = true ↔ (v == v') = true :=
  Iff.rfl

end Arguments

namespace SubRegionDraw

open Double

/-- What is kept of an accepted request. -/
theorem ofRegions_eq_ok {destination source : Declaration} {size : UInt64} {seed : MemoryReference}
    {d : SubRegionDraw} (h : ofRegions destination source size seed = .ok d) :
    d = ⟨destination.name, source.name, size, seed.name⟩ ∧ size ≠ 0 := by
  unfold ofRegions at h
  split at h
  · cases h
  split at h
  · cases h
  split at h
  · cases h
  split at h
  · cases h
  · next hsize _ =>
    cases h
    exact ⟨rfl, fun hzero => hsize (Or.inl hzero)⟩

/-- Calls are equal when the names are the same and the sizes become equal numbers. -/
theorem call_beq_iff {N : Type} [Scalar N] {d d' : SubRegionDraw} :
    (d.call == (d'.call : Call N)) = true ↔
      d.destination = d'.destination ∧ d.source = d'.source ∧
        (Scalar.ofNat d.size.toNat == (Scalar.ofNat d'.size.toNat : N)) = true ∧ d.seed = d'.seed := by
  change (functionName == functionName && ((d.call : Call N).arguments == d'.call.arguments)) = true ↔ _
  have hnil : (([] : List (CallArgument N)) == []) = true := rfl
  simp only [call, beq_self_eq_true, Bool.true_and, List.cons_beq_cons, hnil, Bool.and_true, Bool.and_eq_true,
    CallArgument.identifier_beq_iff, CallArgument.immediate_beq_iff]

section Requests

variable {destination source destination' source' : Declaration} {size size' : UInt64}
  {seed seed' : MemoryReference} {d d' : SubRegionDraw}

/-- Accepted sizes become equal doubles just when they are rounded alike. -/
theorem ofNat_size_beq_iff (h : size ≠ 0) (h' : size' ≠ 0) :
    ((Scalar.ofNat size.toNat : Float) == Scalar.ofNat size'.toNat) = true ↔
      nearest53 size.toNat = nearest53 size'.toNat := by
  have hne {word : UInt64} (h : word ≠ 0) : word.toNat ≠ 0 := fun hzero => h (UInt64.toNat_inj.1 hzero)
  exact ofNat_beq_iff (hne h) (hne h') size.toNat_lt size'.toNat_lt

/-- **What the call of a request says.** Accepted requests with equal calls name the same regions, and their sizes
are the same when they are rounded to 53 bits. So a size below `2 ^ 53` is the size of no other call. -/
theorem eq_of_call_beq (h : ofRegions destination source size seed = .ok d)
    (h' : ofRegions destination' source' size' seed' = .ok d')
    (hcall : (d.call == (d'.call : Call Float)) = true) :
    destination.name = destination'.name ∧ source.name = source'.name ∧ seed.name = seed'.name ∧
      nearest53 size.toNat = nearest53 size'.toNat ∧ (size.toNat < 2 ^ 53 → size = size') := by
  obtain ⟨rfl, hsize⟩ := ofRegions_eq_ok h
  obtain ⟨rfl, hsize'⟩ := ofRegions_eq_ok h'
  obtain ⟨hdestination, hsource, hnumber, hseed⟩ := call_beq_iff.1 hcall
  have hrounded := (ofNat_size_beq_iff hsize hsize').1 hnumber
  refine ⟨hdestination, hsource, hseed, hrounded, fun hlt => ?_⟩
  rw [nearest53_of_lt hlt] at hrounded
  have hlt' : size'.toNat < 2 ^ 53 := by
    by_contra hge
    have := le_nearest53 (Nat.le_of_not_lt hge)
    omega
  rw [nearest53_of_lt hlt'] at hrounded
  exact UInt64.toNat_inj.1 hrounded

/-- Two requests between regions of different lengths. -/
theorem eq_of_call_beq_lengths :
    let destination : Declaration := ⟨"d", .real, 6, none⟩
    let destination' : Declaration := ⟨"d", .real, 9, none⟩
    let source : Declaration := ⟨"s", .real, 12, none⟩
    let d : SubRegionDraw := ⟨"d", "s", 3, "seed"⟩
    ofRegions destination source 3 ⟨"seed", 0⟩ = .ok d ∧ ofRegions destination' source 3 ⟨"seed", 0⟩ = .ok d ∧
      (d.call == (d.call : Call Float)) = true ∧ destination.name = destination'.name ∧
      nearest53 (3 : UInt64).toNat = nearest53 (3 : UInt64).toNat := by
  intro destination destination' source d
  have h : ofRegions destination source 3 ⟨"seed", 0⟩ = .ok d := by decide
  have h' : ofRegions destination' source 3 ⟨"seed", 0⟩ = .ok d := by decide
  have hcall : (d.call == (d.call : Call Float)) = true :=
    call_beq_iff.2 ⟨rfl, rfl, (ofNat_size_beq_iff (by decide) (by decide)).2 rfl, rfl⟩
  obtain ⟨hdestination, -, -, hrounded, -⟩ := eq_of_call_beq h h' hcall
  exact ⟨h, h', hcall, hdestination, hrounded⟩

/-- Requests of the sizes `2 ^ 53` and `2 ^ 53 + 1`, and requests with different slots for the seed, that have
equal calls. -/
theorem call_beq_of_ne :
    let destination : Declaration := ⟨"d", .real, 0, none⟩
    let source : Declaration := ⟨"s", .real, 0, none⟩
    let d (size : UInt64) : SubRegionDraw := ⟨"d", "s", size, "seed"⟩
    (ofRegions destination source 9007199254740992 ⟨"seed", 0⟩ = .ok (d 9007199254740992) ∧
        ofRegions destination source 9007199254740993 ⟨"seed", 0⟩ = .ok (d 9007199254740993) ∧
        ((d 9007199254740992).call == ((d 9007199254740993).call : Call Float)) = true) ∧
      ofRegions destination source 3 ⟨"seed", 0⟩ = .ok (d 3) ∧
        ofRegions destination source 3 ⟨"seed", 1⟩ = .ok (d 3) ∧
        ((d 3).call == ((d 3).call : Call Float)) = true := by
  intro destination source d
  have call_beq {size size' : UInt64} (h : size ≠ 0) (h' : size' ≠ 0)
      (hrounded : nearest53 size.toNat = nearest53 size'.toNat) :
      ((d size).call == ((d size').call : Call Float)) = true :=
    call_beq_iff.2 ⟨rfl, rfl, (ofNat_size_beq_iff h h').2 hrounded, rfl⟩
  refine ⟨⟨by decide, by decide, ?_⟩, by decide, by decide, ?_⟩
  · exact call_beq (by decide) (by decide) (by decide)
  · exact call_beq (by decide) (by decide) rfl

end Requests

end SubRegionDraw

end QuilControl
