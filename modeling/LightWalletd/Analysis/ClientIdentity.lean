import LightWalletd.Model.PeerAddress

/-!
# Who a request is counted for

A client behind a proxy chooses what stands before the comma that the proxy appends its address
with. The hops are read from the right, so that this has no influence on a header value that can
be read. One byte that is no visible character makes the whole value unreadable, and the request is
counted for the proxy.
-/

set_option autoImplicit false

namespace LightWalletd

/-! ## Hops -/

section Split

variable {α β : Type} [DecidableEq α] [DecidableEq β]

/-- Splitting commutes with a map that keeps the separator apart. -/
theorem splitOn_map {f : α → β} {sep : α} {xs : List α} (h : ∀ x ∈ xs, f x = f sep → x = sep) :
    (xs.map f).splitOn (f sep) = (xs.splitOn sep).map (List.map f) := by
  simp only [List.splitOn_eq_splitOnP] at *
  induction xs with
  | nil => rfl
  | cons x xs ih =>
    obtain ⟨hx, hxs⟩ := List.forall_mem_cons.mp h
    rw [List.map_cons, List.splitOnP_cons_eq_if_modifyHead, List.splitOnP_cons_eq_if_modifyHead,
      ih hxs]
    by_cases hsep : x = sep
    · simp [hsep]
    · have hf : f x ≠ f sep := fun heq => hsep (hx heq)
      simp only [beq_iff_eq, hsep, hf, if_false]
      cases xs.splitOnP (· == sep) with
      | nil => rfl
      | cons hop hops => rfl

/-- The parts are made of entries of the list. -/
theorem mem_of_mem_splitOn {sep x : α} {xs part : List α} (hpart : part ∈ xs.splitOn sep)
    (hx : x ∈ part) : x ∈ xs := by
  rw [List.splitOn_eq_splitOnP] at hpart
  induction xs generalizing part with
  | nil =>
    rw [List.splitOnP_nil, List.mem_singleton] at hpart
    rwa [hpart] at hx
  | cons y ys ih =>
    rw [List.splitOnP_cons_eq_if_modifyHead] at hpart
    obtain ⟨hop, hops, hsplit⟩ := List.exists_cons_of_ne_nil (List.splitOnP_ne_nil (· == sep) ys)
    rw [hsplit] at hpart ih
    by_cases hsep : (y == sep) = true
    · rw [if_pos hsep, List.mem_cons] at hpart
      obtain rfl | hpart := hpart
      · cases hx
      · exact List.mem_cons_of_mem _ (ih hpart hx)
    · rw [if_neg hsep, List.modifyHead_cons, List.mem_cons] at hpart
      obtain rfl | hpart := hpart
      · obtain rfl | hx := List.mem_cons.mp hx
        · exact List.mem_cons_self ..
        · exact List.mem_cons_of_mem _ (ih (List.mem_cons_self ..) hx)
      · exact List.mem_cons_of_mem _ (ih (List.mem_cons_of_mem _ hpart) hx)

end Split

/-! ## The rightmost address -/

section Rightmost

variable {headerText : HeaderText} {trusted : List String}

/-- The byte of the separator. -/
def comma : UInt8 := 44

/-- The address of a hop, if it has one that is not on the list. -/
def hopClient (trusted : List String) (hop : List Char) : Option IpAddr :=
  (parseIpAddr (trim hop)).bind fun ip =>
    if trusted.any (ipMatchesProxyEntry ip) then none else some ip

/-- The rightmost address of a header value that is not on the list. -/
def rightmostClient (headerText : HeaderText) (trusted : List String) (value : Bytes) :
    Option IpAddr :=
  (value.splitOn comma).reverse.findSome? fun hop =>
    (headerText.toStr hop).bind (hopClient trusted)

/-- The first client is the first hop that is no proxy. -/
theorem firstClient_eq (hops : List (List Char)) :
    firstClient trusted hops = hops.findSome? (hopClient trusted) := by
  induction hops with
  | nil => rfl
  | cons hop hops ih =>
    rw [List.findSome?_cons, firstClient, ih]
    unfold hopClient
    by_cases hempty : (trim hop).isEmpty = true
    · have hnone : parseIpAddr (trim hop) = none := by
        rw [List.isEmpty_iff.mp hempty]
        decide
      rw [if_pos hempty, hnone]
      rfl
    · rw [if_neg hempty]
      cases parseIpAddr (trim hop) with
      | none => rfl
      | some ip =>
        rw [Option.bind_some]
        by_cases hproxy : trusted.any (ipMatchesProxyEntry ip) = true
        · simp only [if_pos hproxy]
        · simp only [if_neg hproxy]

/-- Functions that agree on a list find the same in it. -/
theorem findSome?_congr {α β : Type} {f g : α → Option β} {xs : List α}
    (h : ∀ x ∈ xs, f x = g x) : xs.findSome? f = xs.findSome? g := by
  induction xs with
  | nil => rfl
  | cons x xs ih =>
    obtain ⟨hx, hxs⟩ := List.forall_mem_cons.mp h
    rw [List.findSome?_cons, List.findSome?_cons, hx, ih hxs]

/-- Two values joined by a comma are searched from the right. -/
theorem rightmostClient_append (front suffix : Bytes) :
    rightmostClient headerText trusted (front ++ comma :: suffix) =
      (rightmostClient headerText trusted suffix).or
        (rightmostClient headerText trusted front) := by
  unfold rightmostClient
  rw [List.splitOn_append_cons_self, List.reverse_append, List.findSome?_append]

/-- The client that is found is not a proxy. -/
theorem not_proxy_of_rightmostClient {value : Bytes} {ip : IpAddr}
    (h : rightmostClient headerText trusted value = some ip) :
    trusted.any (ipMatchesProxyEntry ip) = false := by
  obtain ⟨hop, -, hhop⟩ := List.exists_of_findSome?_eq_some h
  obtain ⟨text, -, htext⟩ := Option.bind_eq_some_iff.mp hhop
  obtain ⟨ip', -, hip⟩ := Option.bind_eq_some_iff.mp htext
  split_ifs at hip with hproxy
  cases hip
  simpa using hproxy

/-- The character of a visible byte. -/
def byteChar (b : UInt8) : Char := Char.ofNat b.toNat

/-- A byte of ASCII is the comma if its character is. -/
theorem eq_comma_of_byteChar {b : UInt8} (hb : b < 128) (h : byteChar b = byteChar comma) :
    b = comma := by
  have hlt : b.toNat < 128 := hb
  have hvalid : b.toNat.isValidChar := Or.inl (by omega)
  have hnat : (byteChar b).toNat = b.toNat := by
    rw [byteChar, Char.ofNat, dif_pos hvalid]
    rfl
  have hcomma : (byteChar b).toNat = comma.toNat := congrArg Char.toNat h
  exact UInt8.toNat_inj.mp (hnat.symm.trans hcomma)

/-- Visible bytes are text as they stand. -/
theorem toStr_of_visible {value : Bytes} (h : ∀ b ∈ value, headerText.visible b = true) :
    headerText.toStr value = some (value.map byteChar) := by
  rw [headerText.toStr_eq, if_pos (List.all_eq_true.mpr h)]
  rfl

/-- The walk over the hops of a readable value finds the rightmost address. -/
theorem clientIpFromForwarded_eq {value : Bytes} (h : ∀ b ∈ value, headerText.visible b = true) :
    clientIpFromForwarded (value.map byteChar) trusted =
      rightmostClient headerText trusted value := by
  have hsplit : (value.map byteChar).splitOn ',' =
      (value.splitOn comma).map (List.map byteChar) :=
    splitOn_map fun b hb heq => eq_comma_of_byteChar (headerText.visible_ascii b (h b hb)) heq
  unfold clientIpFromForwarded rightmostClient
  rw [firstClient_eq, hsplit, ← List.map_reverse, List.findSome?_map]
  apply findSome?_congr
  intro hop hhop
  have hvisible : ∀ b ∈ hop, headerText.visible b = true := fun b hb =>
    h b (mem_of_mem_splitOn (List.mem_reverse.mp hhop) hb)
  rw [toStr_of_visible hvisible]
  rfl

/-- Behind a proxy, the address is the rightmost one of a readable value, else the proxy's. -/
theorem peerIp_forwarded {remote : IpAddr}
    (hproxy : trusted.any (ipMatchesProxyEntry remote) = true) (value : Bytes) :
    peerIp headerText trusted (some remote) (some value) =
      if value.all headerText.visible then
        (rightmostClient headerText trusted value).getD remote
      else remote := by
  have hne : trusted.isEmpty = false := by
    cases trusted with
    | nil => cases hproxy
    | cons entry entries => rfl
  unfold peerIp
  rw [Option.getD_some, hne, if_neg Bool.false_ne_true, if_neg (not_not.mpr hproxy),
    Option.bind_some]
  by_cases hvisible : value.all headerText.visible = true
  · have hall := List.all_eq_true.mp hvisible
    rw [if_pos hvisible, toStr_of_visible hall, Option.bind_some, clientIpFromForwarded_eq hall]
  · rw [if_neg hvisible, headerText.toStr_eq, if_neg hvisible]
    rfl

/-- What stands before the comma has no influence exactly when the value can be read. -/
theorem peerIp_suffix_iff {remote ip : IpAddr}
    (hproxy : trusted.any (ipMatchesProxyEntry remote) = true) {suffix : Bytes}
    (hip : rightmostClient headerText trusted suffix = some ip) (front : Bytes) :
    peerIp headerText trusted (some remote) (some (front ++ comma :: suffix)) = ip ↔
      ∀ b ∈ front ++ suffix, headerText.visible b = true := by
  have hne : remote ≠ ip := by
    rintro rfl
    rw [not_proxy_of_rightmostClient hip] at hproxy
    cases hproxy
  have hcomma : headerText.visible comma = true :=
    headerText.visible_printable comma (by decide) (by decide)
  have hall : (front ++ comma :: suffix).all headerText.visible = true ↔
      ∀ b ∈ front ++ suffix, headerText.visible b = true := by
    simp [hcomma, or_imp, forall_and]
  rw [peerIp_forwarded hproxy, rightmostClient_append, hip, Option.some_or, Option.getD_some,
    ← hall]
  by_cases hvisible : (front ++ comma :: suffix).all headerText.visible = true
  · simp [hvisible]
  · simp [hvisible, hne]

/-- Two header values with the same suffix behind a comma are counted for the rightmost address
of the suffix exactly when all their bytes are visible characters. -/
theorem peerIp_prefix_independent_iff {remote ip : IpAddr}
    (hproxy : trusted.any (ipMatchesProxyEntry remote) = true) {suffix : Bytes}
    (hip : rightmostClient headerText trusted suffix = some ip) (front front' : Bytes) :
    (peerIp headerText trusted (some remote) (some (front ++ comma :: suffix)) = ip ∧
      peerIp headerText trusted (some remote) (some (front' ++ comma :: suffix)) = ip) ↔
      ∀ b ∈ front ++ front' ++ suffix, headerText.visible b = true := by
  rw [peerIp_suffix_iff hproxy hip, peerIp_suffix_iff hproxy hip]
  simp only [List.forall_mem_append]
  constructor
  · rintro ⟨⟨hfront, hsuffix⟩, hfront', -⟩
    exact ⟨⟨hfront, hfront'⟩, hsuffix⟩
  · rintro ⟨⟨hfront, hfront'⟩, hsuffix⟩
    exact ⟨⟨hfront, hsuffix⟩, hfront', hsuffix⟩

end Rightmost

/-! ## A value that cannot be read -/

/-- The visible characters of `http::HeaderValue`: the printable ones and the tab. -/
def isVisibleAscii (b : UInt8) : Bool := decide (32 ≤ b ∧ b < 127) || b == 9

/-- Header text as the HTTP library reads it. -/
def httpHeaderText : HeaderText where
  visible := isVisibleAscii
  toStr value :=
    if value.all isVisibleAscii then some (value.map fun b => Char.ofNat b.toNat) else none
  visible_printable := by
    intro b hlower hupper
    simp [isVisibleAscii, hlower, hupper]
  visible_ascii := by
    intro b h
    simp only [isVisibleAscii, Bool.or_eq_true, decide_eq_true_eq, beq_iff_eq] at h
    obtain ⟨-, h⟩ | rfl := h
    · exact UInt8.lt_trans h (by decide)
    · decide
  toStr_eq _ := rfl

/-- The bytes of a text of ASCII. -/
def asciiBytes (text : String) : Bytes := text.toList.map fun c => UInt8.ofNat c.toNat

/-- A proxy on the loopback that was called from 203.0.113.9. -/
def loopback : IpAddr := .v4 0x7f000001

/-- The address of the caller in the example. -/
def caller : IpAddr := .v4 0xcb007109

/-- One byte above ASCII, and the request is counted for the proxy. -/
theorem peerIp_opaque_prefix :
    ["127.0.0.1"].any (ipMatchesProxyEntry loopback) = true ∧
      rightmostClient httpHeaderText ["127.0.0.1"] (asciiBytes " 203.0.113.9") = some caller ∧
      peerIp httpHeaderText ["127.0.0.1"] (some loopback)
        (some (asciiBytes "1.2.3.4" ++ comma :: asciiBytes " 203.0.113.9")) = caller ∧
      peerIp httpHeaderText ["127.0.0.1"] (some loopback)
        (some (0xff :: comma :: asciiBytes " 203.0.113.9")) = loopback ∧
      caller ≠ loopback := by
  decide +kernel

/-- A byte that is no text hides the caller behind the loopback proxy. -/
theorem peerIp_prefix_independent_loopback :
    (peerIp httpHeaderText ["127.0.0.1"] (some loopback)
        (some (asciiBytes "1.2.3.4" ++ comma :: asciiBytes " 203.0.113.9")) = caller ∧
      peerIp httpHeaderText ["127.0.0.1"] (some loopback)
        (some ([0xff] ++ comma :: asciiBytes " 203.0.113.9")) = caller) ↔
      ∀ b ∈ asciiBytes "1.2.3.4" ++ [0xff] ++ asciiBytes " 203.0.113.9",
        httpHeaderText.visible b = true :=
  peerIp_prefix_independent_iff (by decide +kernel) (by decide +kernel) _ _

end LightWalletd
