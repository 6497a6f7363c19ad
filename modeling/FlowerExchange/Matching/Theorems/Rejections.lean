import FlowerExchange.Matching.Theorems.OrderProcessor

open OrderProcessor

namespace InboundOrderMsg

variable {unspecified : ℚ → Int64} {message : InboundOrderMsg} {timestamp : CStr 20}

structure Echoed (message : InboundOrderMsg) (output : OutboundReportMsg) : Prop where
  execStatus : output.execStatus.text = ascii "Reject"
  reason     : output.reason.text ≠ []
  coid       : output.coid.text = message.coid.text
  instrument : output.instrument.text = message.instrument.text
  side       : output.side = message.side

theorem rejectEmission_echoed (h : message.validate = some reason) :
    message.Echoed
      (message.rejectEmission unspecified <| message.rejection n reason timestamp).output where
  execStatus := by
    simp only [rejectEmission, fillOutboundFields, copyText, rejection]
    decide
  reason := by
    have hr : ∀ r ∈ rejectReasons, (CStr.copy (CStr.copy r : CStr 50).text : CStr 64).text ≠ [] := by
      decide
    exact hr _ <| validateOrder_reason_mem h
  coid := by
    simp [rejectEmission, fillOutboundFields, copyText, rejection, CStr.copy_text]
  instrument := by
    simp [rejectEmission, fillOutboundFields, copyText, CStr.copy_text]
  side := rfl

theorem rejectEmission_quantity :
    (message.rejectEmission unspecified <| message.rejection n reason timestamp).output.quantity =
      (message.quantity.toNat % 2 ^ 16 : Nat) := by
  simp [rejectEmission, fillOutboundFields, rejection, UInt16.toNat_ofNat']

end InboundOrderMsg

namespace OrderProcessor

variable {unspecified : ℚ → Int64} {s : OrderProcessor} {a : Arrival}

variable (unspecified) in
theorem Agrees.rejects (h : Agrees s x) (hm : a.message.validate = some reason) :
    ∃ s', s.step unspecified (.consume a) =
      .ok (s', [a.message.rejectEmission unspecified <| a.message.rejection x.now reason a.time]) := by
  have ⟨lv, loose, h⟩ := h
  have hm := InboundOrderMsg.placement_eq_error_iff.mpr hm
  have ⟨s', hs, _⟩ := h.consume_reject unspecified hm
  exact ⟨s', by rw [hs, Exchange.step_reject hm]⟩

-- Whatever has happened before, a message that is not valid gets one report, which gives its texts and
-- its side back as they are, and its quantity as far as it is not negative.
theorem rejections_echoed (hs : Reached unspecified events s) (hm : a.message.validate ≠ none) :
    ∃ s' emission, (s.step unspecified (.consume a) = .ok (s', [emission])) ∧
      a.message.Echoed emission.output ∧
      (a.message.quantity < 2 ^ 16 → emission.output.quantity = max a.message.quantity 0) := by
  have ⟨reason, hm⟩ := Option.ne_none_iff_exists'.mp hm
  have ⟨s₁, hs₁, h⟩ := reached_agrees unspecified events
  obtain rfl := hs.unique hs₁
  have ⟨s', hstep⟩ := h.rejects unspecified hm
  refine ⟨s', _, hstep, a.message.rejectEmission_echoed hm, fun hq => ?_⟩
  rw [InboundOrderMsg.rejectEmission_quantity]
  omega

theorem rejections_echoed_side :
    let message : InboundOrderMsg := {
      coid       := .copy (ascii "c1")
      instrument := .copy (ascii "Tulip")
      side       := -7
      quantity   := 40
      price      := .finite 2
      seq        := 3
    }
    ∃ s' emission,
      (new.step (fun _ => 0) (.consume ⟨message, default, default⟩) = .ok (s', [emission])) ∧
      message.Echoed emission.output ∧
      (message.quantity < 2 ^ 16 → emission.output.quantity = max message.quantity 0) :=
  have hs : Reached (fun _ => 0) [] new := ⟨[], rfl⟩
  rejections_echoed hs (by decide +kernel)

-- A quantity below zero is not given back.
theorem rejections_clamped :
    let message : InboundOrderMsg := {
      coid       := .copy (ascii "c1")
      instrument := .copy (ascii "Rose")
      side       := 1
      quantity   := -10
      price      := .finite 1
      seq        := 0
    }
    (message.validate = some (ascii "Invalid size")) ∧ (∃ s' emission,
      (new.step (fun _ => 0) (.consume ⟨message, default, default⟩) = .ok (s', [emission])) ∧
      (emission.output.quantity = 0) ∧ emission.output.quantity ≠ message.quantity) := by
  intro message
  have hv : message.validate = some (ascii "Invalid size") := by decide +kernel
  have h : Agrees new .empty := ⟨_, _, new_models⟩
  have ⟨s', hs⟩ := h.rejects (fun _ => 0) (a := ⟨message, default, default⟩) hv
  refine ⟨hv, s', _, hs, ?_⟩
  rw [InboundOrderMsg.rejectEmission_quantity]
  decide

end OrderProcessor
