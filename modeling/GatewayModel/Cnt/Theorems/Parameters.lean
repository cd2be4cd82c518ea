import GatewayModel.Cnt.Parameters

open Json Regexp NatContext

namespace Cnt

section Address

variable {cs rest : List Char}

theorem run_colon_digits (hd : ∀ c ∈ cs, c.isDigit) (hne : cs ≠ [])
    (hr : ∀ c ∈ rest.head?, c.isDigit = false) :
    ((cat (.char (· = ':')) (.group (.cat (.char (·.isDigit)) (.star (·.isDigit))))).run
      (':' :: (cs ++ rest))).head? = some ⟨':' :: cs, [cs], rest⟩ := by
  obtain ⟨d, ds, rfl⟩ := List.exists_cons_of_ne_nil hne
  obtain ⟨ms, hs⟩ := List.head?_eq_some_iff.mp
    (run_star (p := (·.isDigit)) (w := ds) (fun c hc => hd c (List.mem_cons_of_mem d hc)) hr)
  rw [run_char_cat_cons, if_pos (by decide), run, List.cons_append, run_char_cat_cons,
    if_pos (hd d List.mem_cons_self), hs]
  rfl

theorem run_colon_digits_eq_nil (h : ∀ d post, (cs = ':' :: d :: post) → d.isDigit = false) :
    (cat (.char (· = ':')) (.group (.cat (.char (·.isDigit)) (.star (·.isDigit))))).run cs = [] := by
  cases cs
  case nil => rfl
  case cons c cs =>
    rw [run_char_cat_cons]
    split
    case isFalse => rfl
    case isTrue hc =>
      cases of_decide_eq_true hc
      cases cs
      case nil => rfl
      case cons d post =>
        rw [run, run_char_cat_cons, h d post rfl]
        rfl

theorem find_rex {host : List Char} (hh : '\n' ∉ host) (hd : ∀ c ∈ cs, c.isDigit) (hne : cs ≠ [])
    (hr : ∀ c ∈ rest.head?, c.isDigit = false)
    (hl : ∀ pre d post, (rest = pre ++ ':' :: d :: post) → d.isDigit → '\n' ∈ pre) :
    rex.find (host ++ ':' :: (cs ++ rest)) = some ⟨host ++ ':' :: cs, [host, cs], rest⟩ := by
  refine find_of_run (run_group_star_cat (fun c hc => ?_) (run_colon_digits hd hne hr) ?_)
  case refine_1 => exact decide_eq_true fun he : c = '\n' => hh (he ▸ hc)
  case refine_2 =>
    intro u v he hu hp
    obtain ⟨c, u, rfl⟩ := List.exists_cons_of_ne_nil hu
    refine run_colon_digits_eq_nil fun d post hv => ?_
    have he : cs ++ rest = u ++ ':' :: d :: post := hv ▸ (List.cons.inj he).right
    by_contra hdig
    have hdig : d.isDigit := by simpa using hdig
    rcases List.append_eq_append_iff.mp he with ⟨pre, rfl, hrest⟩ | ⟨pre, rfl, hpre⟩
    case inl =>
      have hn := hl pre d post hrest hdig
      have := hp '\n' (List.mem_cons_of_mem c (List.mem_append_right _ hn))
      simp at this
    case inr =>
      rcases pre with _ | ⟨e, pre⟩
      case nil =>
        have hn := hl [] d post hpre.symm hdig
        contradiction
      case cons =>
        have he : ':' = e := (List.cons.inj hpre).left
        exact absurd (hd e (by simp)) (he ▸ by decide)

end Address

theorem parseRedisAddressParam_text {host rest : String} {port : Nat} (hh : '\n' ∉ host.toList)
    (hp : port < 2 ^ 63) (hr : ∀ c ∈ rest.toList.head?, c.isDigit = false)
    (hl : ∀ pre d post, (rest.toList = pre ++ ':' :: d :: post) → d.isDigit → '\n' ∈ pre) :
    parseRedisAddressParam (host ++ ":" ++ toString port ++ rest) = some (host, (port : Int)) := by
  have hd : ∀ c ∈ Nat.toDigits 10 port, c.isDigit :=
    fun c hc => Nat.isDigit_of_mem_toDigits (by decide) (by decide) hc
  have hcs : (host ++ ":" ++ toString port ++ rest).toList =
      host.toList ++ ':' :: (Nat.toDigits 10 port ++ rest.toList) := by
    have hn : (toString port).toList = Nat.toDigits 10 port := Nat.toList_repr
    simp only [String.toList_append, hn, List.append_assoc]
    rfl
  rw [parseRedisAddressParam, hcs, find_rex hh hd Nat.toDigits_ne_nil hr hl]
  simp only [Option.map_some, atoi, Nat.ofDigitChars_toDigits (b := 10) (by decide) (by decide), if_pos hp,
    String.ofList_toList]

theorem mem_run_colon_digits {m : Match Char}
    (h : m ∈ (cat (.char (· = ':')) (.group (.cat (.char (·.isDigit)) (.star (·.isDigit))))).run cs) :
    ∃ d ds, cs = ':' :: d :: ds ++ m.rest ∧ m.groups = [d :: ds] ∧ d.isDigit ∧ ∀ c ∈ ds, c.isDigit := by
  cases cs
  case nil => contradiction
  case cons c cs =>
    rw [run_char_cat_cons] at h
    split at h
    case isFalse => contradiction
    case isTrue hc =>
      cases of_decide_eq_true hc
      rw [run] at h
      cases cs
      case nil => contradiction
      case cons d cs =>
        rw [run_char_cat_cons] at h
        split at h
        case isFalse => contradiction
        case isTrue hd =>
          simp only [run, List.map_map, List.mem_map] at h
          obtain ⟨x, hx, rfl⟩ := h
          obtain ⟨has, hp⟩ := mem_splits hx
          exact ⟨d, x.1, by rw [has]; rfl, rfl, hd, hp⟩

-- Whatever is accepted has an address on one line, a colon, and a port that is a number.
theorem redis_address_sound {redisAddress host : String} {port : Int}
    (h : parseRedisAddressParam redisAddress = some (host, port)) :
    ∃ pre ds rest, redisAddress.toList = pre ++ host.toList ++ ':' :: (ds ++ rest) ∧
      '\n' ∉ host.toList ∧ ds ≠ [] ∧ (∀ c ∈ ds, c.isDigit) ∧
      port = Nat.ofDigitChars 10 ds 0 ∧ port < 2 ^ 63 := by
  rw [parseRedisAddressParam] at h
  cases hm : rex.find redisAddress.toList
  case none =>
    rw [hm] at h
    contradiction
  case some m =>
    obtain ⟨pre, w, hw, hrun⟩ := find_inv hm
    obtain ⟨m₁, h₁, m₂, h₂, rfl⟩ := mem_run_cat hrun
    obtain ⟨hw₁, hg₁, hp⟩ := mem_run_group_star h₁
    obtain ⟨d, ds, hw₂, hg₂, hd, hds⟩ := mem_run_colon_digits h₂
    rw [hm, Option.map_some, hg₁, hg₂] at h
    obtain ⟨n, hn, he⟩ := Option.map_eq_some_iff.mp h
    simp only [atoi] at hn
    split at hn
    case isFalse => contradiction
    case isTrue hlt =>
      cases hn
      cases he
      refine ⟨pre, d :: ds, m₂.rest, ?_, ?_, by simp, by simpa [hd] using hds, rfl, by exact_mod_cast hlt⟩
      case refine_1 =>
        rw [String.toList_ofList, hw, hw₁, hw₂, List.append_assoc]
        rfl
      case refine_2 =>
        rw [String.toList_ofList]
        exact fun hmem => of_decide_eq_true (hp '\n' hmem) rfl

theorem redis_address_sound_trailing : ∃ pre ds rest,
    "redis:6379/0".toList = pre ++ "redis".toList ++ ':' :: (ds ++ rest) ∧
      '\n' ∉ "redis".toList ∧ ds ≠ [] ∧ (∀ c ∈ ds, c.isDigit) ∧
      (6379 : Int) = Nat.ofDigitChars 10 ds 0 ∧ (6379 : Int) < 2 ^ 63 :=
  redis_address_sound (by decide +kernel)

section Decoding

variable {t : Target} {cntId : UInt16} {repl : String}

def parameters (t : Target) (leasedPortsString : Option String) (cntId : UInt16) (repl : String) :
    List Field :=
  [("address".toList, .str "172.17.0.1".toList), ("port".toList, .str "9082".toList)] ++
  leasedPortsString.toList.map (fun ports => ("leasedPorts".toList, .str ports.toList)) ++
  [("redisIp".toList, .str t.redisIp.toList), ("redisPort".toList, .num t.redisPort),
    ("cntId".toList, .str (toString cntId.toNat).toList), ("repl".toList, .str repl.toList)]

def PlainText (s : String) : Prop :=
  ∀ c ∈ s.toList, isPlain c

theorem plainText_of_all {s : String} (h : s.toList.all isPlain) : PlainText s :=
  List.all_eq_true.mp h

def spacedParameters (t : Target) (leasedPortsString : Option String) (cntId : UInt16) (repl : String) :
    List (List Char × Field) :=
  ([' '], "port".toList, .str "9082".toList) ::
  leasedPortsString.toList.map (fun ports => ([' '], "leasedPorts".toList, .str ports.toList)) ++
  [([' '], "redisIp".toList, .str t.redisIp.toList), ([], "redisPort".toList, .num t.redisPort),
    ([' '], "cntId".toList, .str (toString cntId.toNat).toList), ([' '], "repl".toList, .str repl.toList)]

theorem paramStr_toList {ports : Option String} : (paramStr t ports cntId repl).toList =
    objectText ("address".toList, .str "172.17.0.1".toList) (spacedParameters t ports cntId repl) := by
  have h₁ : "\x7b\"address\":\"172.17.0.1\", \"port\":\"9082\", ".toList =
      '\x7b' :: '"' :: "address".toList ++ '"' :: ':' :: '"' :: "172.17.0.1".toList ++
        '"' :: ',' :: ' ' :: '"' :: "port".toList ++ '"' :: ':' :: '"' :: "9082".toList ++
        ['"', ',', ' '] := by decide +kernel
  have h₂ : "\"leasedPorts\":\"".toList = '"' :: "leasedPorts".toList ++ ['"', ':', '"'] := rfl
  have h₃ : "\"redisIp\":\"".toList = '"' :: "redisIp".toList ++ ['"', ':', '"'] := rfl
  have h₄ : "\"redisPort\":".toList = '"' :: "redisPort".toList ++ ['"', ':'] := rfl
  have h₅ : ", \"cntId\":\"".toList = ',' :: ' ' :: '"' :: "cntId".toList ++ ['"', ':', '"'] := rfl
  have h₆ : "\", \"repl\":\"".toList = '"' :: ',' :: ' ' :: '"' :: "repl".toList ++ ['"', ':', '"'] := rfl
  have h₇ : "\", ".toList = ['"', ',', ' '] ∧ "\",".toList = ['"', ','] ∧ "\"\x7d".toList = ['"', '\x7d'] ∧
      "".toList = [] := ⟨rfl, rfl, rfl, rfl⟩
  unfold paramStr
  cases ports
  all_goals
    simp only [String.toList_append, Option.elim_none, Option.elim_some, h₁, h₂, h₃, h₄, h₅, h₆, h₇,
      objectText, spacedParameters, tailText, fieldText, Value.text, Option.toList_none,
      Option.toList_some, List.map_nil, List.map_cons, List.cons_append, List.append_assoc, List.nil_append]

theorem plain_toString {n : Nat} : ∀ c ∈ (toString n).toList, isPlain c := by
  intro c hc
  have hd : c.isDigit := Nat.isDigit_of_mem_toDigits (b := 10) (by decide) (by decide)
    (Nat.toList_repr (n := n) ▸ hc)
  have hlt : 48 ≤ c.toNat := by
    simp only [Char.isDigit, Bool.and_eq_true, decide_eq_true_eq] at hd
    exact hd.left
  simp only [isPlain, Bool.and_eq_true, decide_eq_true_eq]
  exact ⟨⟨ne_of_isDigit hd rfl, ne_of_isDigit hd rfl⟩, by omega⟩

theorem spacedParameters_map {ports : Option String} :
    ("address".toList, Value.str "172.17.0.1".toList) ::
      (spacedParameters t ports cntId repl).map (·.2) = parameters t ports cntId repl := by
  cases ports <;> rfl

theorem decode_paramStr {ports : Option String} :
    decode (paramStr t ports cntId repl).toList = some (parameters t ports cntId repl) ↔
      PlainText t.redisIp ∧ (∀ ps ∈ ports, PlainText ps) ∧ PlainText repl := by
  constructor
  case mp =>
    intro h
    have hp := decode_plain h
    refine ⟨?_, fun ps hm => ?_, ?_⟩
    case refine_1 => exact (hp ("redisIp".toList, .str t.redisIp.toList) (by simp [parameters])).right
    case refine_2 =>
      cases hm
      exact (hp ("leasedPorts".toList, .str ps.toList) (by simp [parameters])).right
    case refine_3 => exact (hp ("repl".toList, .str repl.toList) (by simp [parameters])).right
  case mpr =>
    rintro ⟨hip, hports, hrepl⟩
    have hsp : isSpace ' ' ∧ ∀ c ∈ [], isSpace c := ⟨rfl, by simp⟩
    have haddr : PlainField ("address".toList, .str "172.17.0.1".toList) :=
      ⟨plainText_of_all rfl, plainText_of_all rfl⟩
    rw [paramStr_toList, decode_text haddr ?_, spacedParameters_map]
    simp only [spacedParameters, List.forall_mem_append, List.forall_mem_cons, List.forall_mem_map]
    refine ⟨⟨⟨hsp, plainText_of_all rfl, plainText_of_all rfl⟩, fun ps hm => ?_⟩, ?_⟩
    case refine_1 => exact ⟨hsp, plainText_of_all rfl, hports ps (Option.mem_toList.mp hm)⟩
    case refine_2 =>
      exact ⟨⟨hsp, plainText_of_all rfl, hip⟩, ⟨by simp, plainText_of_all rfl, trivial⟩,
        ⟨hsp, plainText_of_all rfl, plain_toString⟩, ⟨hsp, plainText_of_all rfl, hrepl⟩, by simp⟩

end Decoding

-- A gateway that is started with an address and a port of the database creates functions that find both
-- among their parameters, together with their own id, kind and ports, if the text that `nflib` prints
-- for the ports needs no escapes, and only then.
theorem functions_configured [Bits β] (hostname auth ni : String) (nis : List String) (sv : Service)
    {host : String} {port : Nat} (hh : PlainText host) (hp : port < 2 ^ 63) :
    ∃ t, mainTarget (hostname :: auth :: (host ++ ":" ++ toString port) :: ni :: nis) = some t ∧
      t.redisIp = host ∧ t.redisPort = port ∧
      ∀ (ow : OpenWhisk β) (half : Half) (cntId : UInt16) (repl : String), (repl = "0" ∨ repl = "1") →
        let leasedPorts := sv.getStringFromPortSlice (ow.cpMap.assignPorts half ow.addrs.size).2
        (decode (ow.prepare sv t half cntId repl).2.toList =
          some (parameters t (some leasedPorts) cntId repl)) ↔ PlainText leasedPorts := by
  have hn : '\n' ∉ host.toList := fun hm => absurd (hh '\n' hm) (by decide)
  have hparse : parseRedisAddressParam (host ++ ":" ++ toString port) = some (host, (port : Int)) := by
    rw [← String.append_empty (s := host ++ ":" ++ toString port)]
    exact parseRedisAddressParam_text hn hp (by simp) (by simp)
  refine ⟨_, by rw [mainTarget, hparse]; rfl, rfl, rfl, fun ow half cntId repl hr => ?_⟩
  have hrepl : PlainText repl := by
    rcases hr with rfl | rfl <;> exact plainText_of_all rfl
  simp only [OpenWhisk.prepare, if_true]
  exact decode_paramStr.trans ⟨fun h => h.right.left _ rfl,
    fun h => ⟨hh, fun ps hm => Option.mem_some.mp hm ▸ h, hrepl⟩⟩

section Base64

def base64Digit (n : Nat) : Char :=
  "ABCDEFGHIJKLMNOPQRSTUVWXYZabcdefghijklmnopqrstuvwxyz0123456789+/".toList.getD n '='

def base64 : List Nat → List Char
  | []     => []
  | [a]    => [base64Digit (a / 4), base64Digit (a % 4 * 16), '=', '=']
  | [a, b] => [base64Digit (a / 4), base64Digit (a % 4 * 16 + b / 16), base64Digit (b % 16 * 4), '=']
  | a :: b :: c :: bytes =>
    base64Digit (a / 4) :: base64Digit (a % 4 * 16 + b / 16) :: base64Digit (b % 16 * 4 + c / 64) ::
      base64Digit (c % 64) :: base64 bytes

theorem plain_base64Digit : isPlain (base64Digit n) := by
  have hall : PlainText "ABCDEFGHIJKLMNOPQRSTUVWXYZabcdefghijklmnopqrstuvwxyz0123456789+/" :=
    plainText_of_all rfl
  rw [base64Digit, List.getD_eq_getElem?_getD]
  cases hg : "ABCDEFGHIJKLMNOPQRSTUVWXYZabcdefghijklmnopqrstuvwxyz0123456789+/".toList[n]?
  case none   => rfl
  case some c => exact hall c (List.mem_of_getElem? hg)

theorem plain_base64 {bytes : List Nat} : ∀ c ∈ base64 bytes, isPlain c := by
  have he : isPlain '=' := rfl
  induction bytes using base64.induct
  case case1              => simp [base64]
  case case2              => simp [base64, plain_base64Digit, he]
  case case3              => simp [base64, plain_base64Digit, he]
  case case4 a b c _ hi => simpa [base64, plain_base64Digit] using hi

end Base64

theorem functions_configured_redis :
    let sv : Service := {
      getStringFromPortSlice := fun ports =>
        String.ofList (base64 (ports.flatMap fun p => [p.toNat / 256, p.toNat % 256]))
      post := fun _ => .failed
    }
    ∃ t, mainTarget ["localhost", "key", "redis" ++ ":" ++ toString 6379, "eth0"] = some t ∧
      t.redisIp = "redis" ∧ t.redisPort = (6379 : Nat) ∧
      ∀ (ow : OpenWhisk Words) (half : Half) (cntId : UInt16) (repl : String),
        (repl = "0" ∨ repl = "1") →
        decode (ow.prepare sv t half cntId repl).2.toList = some (parameters t
          (some (sv.getStringFromPortSlice (ow.cpMap.assignPorts half ow.addrs.size).2)) cntId repl) := by
  intro sv
  have hh : PlainText "redis" := plainText_of_all rfl
  have hp : 6379 < 2 ^ 63 := by decide
  obtain ⟨t, ht, hip, hport, hdec⟩ :=
    functions_configured (β := Words) "localhost" "key" "eth0" [] sv hh hp
  refine ⟨t, ht, hip, hport, fun ow half cntId repl hr => (hdec ow half cntId repl hr).mpr ?_⟩
  intro c hc
  exact plain_base64 c (by simpa [sv] using hc)

end Cnt
