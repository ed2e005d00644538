import Diode.L4Evm.VM

/-!
# The interpreter

`step` is a round of the loop, from fetching an instruction to the next one,
calls and creations included; `exec` runs rounds until one ends the run, and
`execute` turns what comes of it into the result the host's frame reports.
-/
namespace Diode.L4.VM
open Diode.Core

/-- How a round ends: the loop goes on, or the run is over with its output. -/
abbrev Round := VM ⊕ (VM × Bytes)

def NEXT (x : Prog VM) : Prog Round := do
  let vm ← x
  .ret (.inl (vm.setPC (vm.PC + 1)))

def CONTINUE (x : Prog VM) : Prog Round := do
  let vm ← x
  .ret (.inl vm)

/-! ## Asking the host -/

def account_exists (addr : Addr) : Prog Bool := .ask (HostCall.account_exists addr) .ret
def get_storage (addr : Addr) (key : Word) : Prog Word := .ask (HostCall.get_storage addr key) .ret
def set_storage (addr : Addr) (key value : Word) : Prog EvmcStorageStatus :=
  .ask (HostCall.set_storage addr key value) .ret
def get_balance (addr : Addr) : Prog Word := .ask (HostCall.get_balance addr) .ret
def get_code_size (addr : Addr) : Prog (BitVec 64) := .ask (HostCall.get_code_size addr) .ret
def get_code_hash (addr : Addr) : Prog Word := .ask (HostCall.get_code_hash addr) .ret
def copy_code (addr : Addr) (offset size : Nat) : Prog Bytes :=
  .ask (HostCall.copy_code addr offset size) .ret
def selfdestruct (addr beneficiary : Addr) : Prog Unit :=
  .ask (HostCall.selfdestruct addr beneficiary) .ret
def call (msg : EvmcMessage) : Prog CallResult := .ask (HostCall.call msg) .ret
def get_block_hash (number : BitVec 64) : Prog Word := .ask (HostCall.get_block_hash number) .ret
def emit_log (addr : Addr) (data : Bytes) (topics : List Word) : Prog Unit :=
  .ask (HostCall.emit_log addr data topics) .ret

/-! ## Ending the run -/

/-- mirrors evm/libaleth-interpreter/VM.cpp:308-338; `RETURN` and `REVERT` up to their output. -/
def output (vm : VM) : Prog (VM × Bytes) := do
  let offset ← vm.sp 0
  let size ← vm.sp 1
  let vm ← updateMem (vm.setCopyMemSize 0) (← memNeed offset size)
  let vm ← updateIOGas vm
  .ret (vm, ← load vm.mem (u64 offset.toNat) (u64 size.toNat))

def RETURN (vm : VM) : Prog Round := do
  let r ← output vm
  .ret (.inr r)

def REVERT (c : Context) (vm : VM) : Prog Round := do
  if c.rev < .BYZANTIUM then .stop .BadInstruction
  let r ← output vm
  .stop (.RevertInstruction r.1.io_gas r.2)

def STOP (vm : VM) : Prog Round := do
  let vm ← updateIOGas vm
  .ret (.inr (vm, []))

/-- What comes on top for an account that does not exist, where it is charged for. -/
def newAccountGas (charged : Bool) (destination : Addr) : Prog Nat :=
  if charged then do
    let found ← account_exists destination
    .ret (if found then 0 else callNewAccount)
  else .ret 0

/-- Whether a self-destruct pays for the account its balance goes to. -/
def paysNewAccount (c : Context) : Prog Bool :=
  if c.rev < .TANGERINE_WHISTLE then .ret false
  else if c.rev = .TANGERINE_WHISTLE then .ret true
  else do
    let balance ← get_balance c.message.destination
    .ret (balance ≠ 0)

/-- mirrors evm/libaleth-interpreter/VM.cpp:340-365 -/
def SELFDESTRUCT (c : Context) (vm : VM) : Prog Round := do
  if c.message.static then .stop .DisallowedStateChange
  let destination := (← vm.sp 0).setWidth 160
  let fresh ← newAccountGas (← paysNewAccount c) destination
  let vm ← updateIOGas (vm.setRunGas (u64 (vm.runGas + fresh)))
  let _ ← selfdestruct c.message.destination destination
  .ret (.inr (vm, []))

/-! ## Memory -/

/-- mirrors evm/libaleth-interpreter/VM.cpp:380-388; the offset is cut to 32 bits. -/
def MLOAD (vm : VM) : Prog VM := do
  let offset ← vm.sp 0
  let vm ← updateMem vm ((← toInt63 offset.toNat) + 32)
  let vm ← updateIOGas vm
  vm.set_spp (BitVec.ofNat 256 (ofBe (← load vm.mem (offset.toNat % 2 ^ 32) 32)))

/-- mirrors evm/libaleth-interpreter/VM.cpp:390-398 -/
def MSTORE (vm : VM) : Prog VM := do
  let offset ← vm.sp 0
  let vm ← updateMem vm ((← toInt63 offset.toNat) + 32)
  let vm ← updateIOGas vm
  vm.store (offset.toNat % 2 ^ 32) (Word.bytes (← vm.sp 1))

/-- mirrors evm/libaleth-interpreter/VM.cpp:400-408 -/
def MSTORE8 (vm : VM) : Prog VM := do
  let offset ← vm.sp 0
  let vm ← updateMem vm ((← toInt63 offset.toNat) + 1)
  let vm ← updateIOGas vm
  vm.store (offset.toNat % 2 ^ 32) [UInt8.ofNat ((← vm.sp 1).toNat % 256)]

/-- mirrors evm/libaleth-interpreter/VM.cpp:410-425 -/
def SHA3 (c : Context) (vm : VM) : Prog VM := do
  let offset ← vm.sp 0
  let size ← vm.sp 1
  let runGas ← toInt63 (sha3Gas + (size.toNat + 31) / 32 * sha3WordGas)
  let vm ← updateMem (vm.setRunGas runGas) (← memNeed offset size)
  let vm ← updateIOGas vm
  vm.set_spp (c.keccak256 (← load vm.mem (u64 offset.toNat) (u64 size.toNat)))

/-- `n` items of the stack from the `i`-th on. -/
def sps (vm : VM) : Nat → Nat → Prog (List Word)
  | _, 0 => .ret []
  | i, n + 1 => do
    let w ← vm.sp i
    let ws ← sps vm (i + 1) n
    .ret (w :: ws)

/-- mirrors evm/libaleth-interpreter/VM.cpp:427-534 -/
def LOG (c : Context) (n : Nat) (vm : VM) : Prog VM := do
  if c.message.static then .stop .DisallowedStateChange
  let vm ← logGasMem vm n
  let vm ← updateIOGas vm
  let data ← load vm.mem (u64 (← vm.sp 0).toNat) (u64 (← vm.sp 1).toNat)
  let topics ← vm.sps 2 n
  let _ ← emit_log c.message.destination data topics
  .ret vm

/-- mirrors evm/libaleth-interpreter/VMCalls.cpp:10-23 -/
def copyDataToMemory (vm : VM) (data : Bytes) : Prog VM := do
  let offset := u64 (← vm.sp 0).toNat
  let bigIndex := (← vm.sp 1).toNat
  let index := u64 bigIndex
  let size := u64 (← vm.sp 2).toNat
  let sizeToBeCopied := if data.length < bigIndex + size then
    if data.length < bigIndex then 0 else sub64 data.length index else size
  let vm ← if 0 < sizeToBeCopied then do vm.store offset (← load data index sizeToBeCopied)
    else .ret vm
  if sizeToBeCopied < size then
    vm.store (offset + sizeToBeCopied) (List.replicate (size - sizeToBeCopied) 0)
  else .ret vm

/-- `CALLDATACOPY` and `CODECOPY`.
mirrors evm/libaleth-interpreter/VM.cpp:988-998,1030-1039 -/
def COPY (data : Bytes) (vm : VM) : Prog VM := do
  let offset ← vm.sp 0
  let size ← vm.sp 2
  let copyMemSize ← toInt63 size.toNat
  let vm ← updateMem (vm.setCopyMemSize copyMemSize) (← memNeed offset size)
  let vm ← updateIOGas vm
  copyDataToMemory vm data

/-- mirrors evm/libaleth-interpreter/VM.cpp:1000-1015 -/
def RETURNDATACOPY (c : Context) (vm : VM) : Prog VM := do
  if c.rev < .BYZANTIUM then .stop .BadInstruction
  let endOfAccess := (← vm.sp 1).toNat + (← vm.sp 2).toNat
  if vm.returnData.length < endOfAccess then .stop .BufferOverrun
  COPY vm.returnData vm

/-- mirrors evm/libaleth-interpreter/VM.cpp:1041-1063 -/
def EXTCODECOPY (vm : VM) : Prog VM := do
  let copyMemSize ← toInt63 (← vm.sp 3).toNat
  let vm ← updateMem (vm.setCopyMemSize copyMemSize) (← memNeed (← vm.sp 1) (← vm.sp 3))
  let vm ← updateIOGas vm
  let address := (← vm.sp 0).setWidth 160
  let memoryOffset := u64 (← vm.sp 1).toNat
  let codeOffset := min (← vm.sp 2).toNat (2 ^ 64 - 1)
  let copied ← copy_code address codeOffset copyMemSize
  if copyMemSize < copied.length then .stop .undefined
  let vm ← vm.store memoryOffset copied
  vm.store (memoryOffset + copied.length) (List.replicate (copyMemSize - copied.length) 0)

/-! ## The stack, the code and the storage -/

/-- mirrors evm/libaleth-interpreter/VM.cpp:536-547 -/
def EXP (c : Context) (vm : VM) : Prog VM := do
  let expon ← vm.sp 1
  let byteCost := if .SPURIOUS_DRAGON ≤ c.rev then 50 else 10
  let runGas ← toInt63 (stepGas5 + byteCost * Intx.count_significant_words 5 expon.toNat)
  binary Intx.exp (vm.setRunGas runGas)

/-- mirrors evm/libaleth-interpreter/VM.cpp:803-821 -/
def SIGNEXTEND (vm : VM) : Prog VM := do
  let vm ← updateIOGas vm
  let x ← vm.sp 0
  if x.toNat < 31 then vm.set_sp 1 (signextend x (← vm.sp 1)) else .ret vm

/-- mirrors evm/libaleth-interpreter/VM.cpp:924-945 -/
def CALLDATALOAD (c : Context) (vm : VM) : Prog VM := do
  let vm ← updateIOGas vm
  let data := c.message.input
  let x ← vm.sp 0
  if x.toNat + 31 < data.length then
    vm.set_sp 0 (BitVec.ofNat 256 (ofBe (← load data (u64 x.toNat) 32)))
  else if data.length ≤ x.toNat then vm.set_sp 0 0
  else
    let r := (List.range 32).map fun j => data.getD (u64 x.toNat + j) 0
    vm.set_sp 0 (BitVec.ofNat 256 (ofBe r))

def POP (vm : VM) : Prog VM := updateIOGas vm

/-- The word a push carries. -/
def immediate (b : Bytes) : Word := b.foldl (fun w x => (w <<< 8) ||| x.toBitVec.setWidth 256) 0

/-- mirrors evm/libaleth-interpreter/VM.cpp:1195-1248 -/
def PUSH (c : Context) (n : Nat) (vm : VM) : Prog VM := do
  let vm ← updateIOGas vm
  let b ← load c.code (vm.PC + 1) (n + 1)
  let vm ← vm.set_spp (immediate b)
  .ret (vm.setPC (vm.PC + 1 + (n + 1)))

def JUMP (c : Context) (vm : VM) : Prog VM := do
  let vm ← updateIOGas vm
  .ret (vm.setPC (← verifyJumpDest c (← vm.sp 0)))

def JUMPI (c : Context) (vm : VM) : Prog VM := do
  let vm ← updateIOGas vm
  if (← vm.sp 1) ≠ 0 then .ret (vm.setPC (← verifyJumpDest c (← vm.sp 0)))
  else .ret (vm.setPC (vm.PC + 1))

def DUP (n : Nat) : VM → Prog VM := ordinary fun vm => vm.sp n

def SWAP (n : Nat) (vm : VM) : Prog VM := do
  let vm ← updateIOGas vm
  let x ← vm.sp 0
  let y ← vm.sp (n + 1)
  let vm ← vm.set_sp 0 y
  vm.set_sp (n + 1) x

/-- mirrors evm/libaleth-interpreter/VM.cpp:1365-1398; a change is paid for after it was made. -/
def SSTORE (c : Context) (vm : VM) : Prog VM := do
  if c.message.static then .stop .DisallowedStateChange
  if .ISTANBUL ≤ c.rev ∧ vm.io_gas ≤ callStipend then .stop .OutOfGas
  let status ← set_storage c.message.destination (← vm.sp 0) (← vm.sp 1)
  let unchanged := if c.rev = .CONSTANTINOPLE ∨ .ISTANBUL ≤ c.rev then
    (Instruction.SLOAD.metrics c.rev).gas_cost else sstoreResetGas
  updateIOGas (vm.setRunGas (match status with
    | .ADDED => sstoreSetGas
    | .MODIFIED => sstoreResetGas
    | .DELETED => sstoreResetGas
    | .UNCHANGED => unchanged
    | .MODIFIED_AGAIN => unchanged))

def JUMPDEST (vm : VM) : Prog VM := updateIOGas (vm.setRunGas jumpdestGas)

/-! ## Calls and creations -/

def createSalt (create2 : Bool) (vm : VM) : Prog Word := if create2 then vm.sp 3 else .ret 0

def createHashGas (create2 : Bool) (initSize : Word) : Prog Nat :=
  if create2 then toInt63 ((initSize.toNat + 31) / 32 * sha3WordGas) else .ret 0

/-- A creation is given all but one 64th of the gas. -/
def createMsgGas (c : Context) (vm : VM) : BitVec 64 :=
  let gas := BitVec.ofNat 64 vm.io_gas
  if .TANGERINE_WHISTLE ≤ c.rev then gas - gas.sdiv 64 else gas

/-- mirrors evm/libaleth-interpreter/VMCalls.cpp:100-160 -/
def caseCreate (c : Context) (create2 : Bool) (vm : VM) : Prog VM := do
  let endowment ← vm.sp 0
  let initOff ← vm.sp 1
  let initSize ← vm.sp 2
  let salt ← createSalt create2 vm
  let hashGas ← createHashGas create2 initSize
  let vm ← updateMem (vm.setRunGas (u64 (createGas + hashGas))) (← memNeed initOff initSize)
  let vm ← updateIOGas vm
  let vm := vm.setReturnData []
  let balance ← get_balance c.message.destination
  if endowment ≤ balance ∧ c.message.depth < 1024 then
    let gas := createMsgGas c vm
    let input ← load vm.mem (u64 initOff.toNat) (u64 initSize.toNat)
    let result ← call {
      kind := if create2 then .create2 else .create
      static := false
      sender := c.message.destination
      destination := 0
      value := endowment
      input
      gas
      create2_salt := salt
      depth := c.message.depth + 1 }
    let vm ← vm.set_spp (if result.status_code = 0 then result.create_address.setWidth 256 else 0)
    .ret ((vm.setReturnData result.output).setGas (sub64 vm.io_gas (gas - result.gas_left).toNat))
  else vm.set_spp 0

/-- mirrors evm/libaleth-interpreter/VM.cpp:270-290 -/
def CREATE (c : Context) (create2 : Bool) (vm : VM) : Prog VM := do
  if create2 = true ∧ c.rev < .CONSTANTINOPLE then .stop .BadInstruction
  if c.message.static then .stop .DisallowedStateChange
  caseCreate c create2 vm

inductive CallOp where
  | CALL | CALLCODE | DELEGATECALL | STATICCALL
  deriving DecidableEq

/-- What `caseCallSetup` leaves behind. -/
structure CallSetup where
  vm : VM
  msg : EvmcMessage
  outOff : Nat
  outSize : Nat
  ok : Bool

def CallOp.haveValueArg (op : CallOp) : Bool := op = .CALL ∨ op = .CALLCODE

def CallOp.sizesOffset (op : CallOp) : Nat := if op.haveValueArg then 3 else 2

def CallOp.kind : CallOp → CallKind
  | CALL => .call
  | STATICCALL => .call
  | CALLCODE => .callcode
  | DELEGATECALL => .delegatecall

/-- The value that goes with a call. -/
def callValue (op : CallOp) (vm : VM) : Prog Word := if op.haveValueArg then vm.sp 2 else .ret 0

/-- What a call costs apart from its memory and the gas it is given.
mirrors evm/libaleth-interpreter/VMCalls.cpp:195-230 -/
def callCharge (c : Context) (op : CallOp) (vm : VM) : Prog VM := do
  let destination := (← vm.sp 1).setWidth 160
  let value ← callValue op vm
  let toSelf := .BERLIN ≤ c.rev ∧ c.message.destination = destination
  let runGas := if toSelf then callSelfGas else vm.runGas
  let fresh ← newAccountGas (op = .CALL ∧ (value ≠ 0 ∨ c.rev < .SPURIOUS_DRAGON)) destination
  let runGas := u64 (runGas + fresh)
  .ret (vm.setRunGas (if value ≠ 0 then u64 (runGas + valueTransferGas) else runGas))

/-- Whether the account has the value that goes with a call. -/
def balanceOk (c : Context) (value : Word) : Prog Bool :=
  if value ≠ 0 then do
    let balance ← get_balance c.message.destination
    .ret (value ≤ balance)
  else .ret true

/-- The gas a call is given is at most all but one 64th.
mirrors evm/libaleth-interpreter/VMCalls.cpp:244-255 -/
def callGas (c : Context) (vm : VM) : Prog (Nat × VM) := do
  let asked := (← vm.sp 0).toNat
  let most := vm.io_gas - vm.io_gas / 64
  let gas ← toInt63 (if .TANGERINE_WHISTLE ≤ c.rev then min asked most else asked)
  .ret (gas, ← updateIOGas (vm.setRunGas gas))

/-- mirrors evm/libaleth-interpreter/VMCalls.cpp:193-290 -/
def caseCallSetup (c : Context) (op : CallOp) (vm : VM) : Prog CallSetup := do
  let destination := (← vm.sp 1).setWidth 160
  let value ← callValue op vm
  let vm ← callCharge c op vm
  let inputOffset ← vm.sp op.sizesOffset
  let inputSize ← vm.sp (op.sizesOffset + 1)
  let outputOffset ← vm.sp (op.sizesOffset + 2)
  let outputSize ← vm.sp (op.sizesOffset + 3)
  let inputMemNeed ← memNeed inputOffset inputSize
  let outputMemNeed ← memNeed outputOffset outputSize
  let vm ← updateMem vm (max inputMemNeed outputMemNeed)
  let vm ← updateIOGas vm
  let (gas, vm) ← callGas c vm
  let input ← load vm.mem (u64 inputOffset.toNat) (u64 inputSize.toNat)
  let balanceOk ← balanceOk c value
  .ret {
    vm
    msg := {
      kind := op.kind
      static := op = .STATICCALL ∨ c.message.static = true
      destination
      input
      sender := if op = .DELEGATECALL then c.message.sender else c.message.destination
      value := if op = .DELEGATECALL then c.message.value else value
      gas := BitVec.ofNat 64 (if value ≠ 0 then gas + callStipend else gas)
      create2_salt := 0
      depth := c.message.depth + 1 }
    outOff := u64 outputOffset.toNat
    outSize := u64 outputSize.toNat
    ok := balanceOk = true ∧ c.message.depth < 1024 }

/-- mirrors evm/libaleth-interpreter/VMCalls.cpp:162-191 -/
def caseCall (c : Context) (op : CallOp) (vm : VM) : Prog VM := do
  let s ← caseCallSetup c op (vm.setReturnData [])
  if s.ok then
    let result ← call s.msg
    let vm ← (s.vm.setReturnData result.output).store s.outOff (result.output.take s.outSize)
    let vm ← vm.set_spp (if result.status_code = 0 then 1 else 0)
    .ret (vm.setGas (u64 (vm.io_gas + result.gas_left.toNat)))
  else
    let vm ← s.vm.set_spp 0
    .ret (vm.setGas (u64 (vm.io_gas + s.msg.gas.toNat)))

/-- mirrors evm/libaleth-interpreter/VM.cpp:292-306 -/
def CALL (c : Context) (op : CallOp) (vm : VM) : Prog VM := do
  if op = .DELEGATECALL ∧ c.rev < .HOMESTEAD then .stop .BadInstruction
  if op = .STATICCALL ∧ c.rev < .BYZANTIUM then .stop .BadInstruction
  if op = .CALL ∧ c.message.static = true then
    if (← vm.sp 2) ≠ 0 then .stop .DisallowedStateChange
  caseCall c op vm

/-! ## The loop -/

/-- An instruction some revisions do not have. -/
def since (c : Context) (rev : Revision) (x : Prog VM) : Prog VM :=
  if c.rev < rev then .stop .BadInstruction else x

/-- The word of an address. -/
def ofAddr (a : Addr) : Word := a.setWidth 256

/-- The cases of `interpretCases`.
mirrors evm/libaleth-interpreter/VM.cpp:261-1445 -/
def interpretCases (c : Context) (vm : VM) : Instruction → Prog Round
  | .CREATE2 => NEXT (CREATE c true vm)
  | .CREATE => NEXT (CREATE c false vm)
  | .DELEGATECALL => NEXT (CALL c .DELEGATECALL vm)
  | .STATICCALL => NEXT (CALL c .STATICCALL vm)
  | .CALL => NEXT (CALL c .CALL vm)
  | .CALLCODE => NEXT (CALL c .CALLCODE vm)
  | .RETURN => RETURN vm
  | .REVERT => REVERT c vm
  | .SELFDESTRUCT => SELFDESTRUCT c vm
  | .STOP => STOP vm
  | .MLOAD => NEXT (MLOAD vm)
  | .MSTORE => NEXT (MSTORE vm)
  | .MSTORE8 => NEXT (MSTORE8 vm)
  | .SHA3 => NEXT (SHA3 c vm)
  | .LOG n => NEXT (LOG c n vm)
  | .EXP => NEXT (EXP c vm)
  | .ADD => NEXT (binary (fun x y => x + y) vm)
  | .MUL => NEXT (binary (fun x y => x * y) vm)
  | .SUB => NEXT (binary (fun x y => x - y) vm)
  | .DIV => NEXT (binary DIV vm)
  | .SDIV => NEXT (binary SDIV vm)
  | .MOD => NEXT (binary MOD vm)
  | .SMOD => NEXT (binary SMOD vm)
  | .NOT => NEXT (unary (fun x => ~~~x) vm)
  | .LT => NEXT (binary (fun x y => flag (x < y)) vm)
  | .GT => NEXT (binary (fun x y => flag (x > y)) vm)
  | .SLT => NEXT (binary SLT vm)
  | .SGT => NEXT (binary SGT vm)
  | .EQ => NEXT (binary (fun x y => flag (x = y)) vm)
  | .ISZERO => NEXT (unary (fun x => flag (x = 0)) vm)
  | .AND => NEXT (binary (fun x y => x &&& y) vm)
  | .OR => NEXT (binary (fun x y => x ||| y) vm)
  | .XOR => NEXT (binary (fun x y => x ^^^ y) vm)
  | .BYTE => NEXT (binary BYTE vm)
  | .SHL => NEXT (since c .CONSTANTINOPLE (binary SHL vm))
  | .SHR => NEXT (since c .CONSTANTINOPLE (binary SHR vm))
  | .SAR => NEXT (since c .CONSTANTINOPLE (binary SAR vm))
  | .ADDMOD => NEXT (ternary ADDMOD vm)
  | .MULMOD => NEXT (ternary MULMOD vm)
  | .SIGNEXTEND => NEXT (SIGNEXTEND vm)
  | .ADDRESS => NEXT (ordinary (fun _ => .ret (ofAddr c.message.destination)) vm)
  | .ORIGIN => NEXT (ordinary (fun _ => .ret (ofAddr c.tx.tx_origin)) vm)
  | .BALANCE => NEXT (ordinary (fun vm => do get_balance ((← vm.sp 0).setWidth 160)) vm)
  | .CALLER => NEXT (ordinary (fun _ => .ret (ofAddr c.message.sender)) vm)
  | .CALLVALUE => NEXT (ordinary (fun _ => .ret c.message.value) vm)
  | .CALLDATALOAD => NEXT (CALLDATALOAD c vm)
  | .CALLDATASIZE => NEXT (ordinary (fun _ => .ret (BitVec.ofNat 256 c.message.input.length)) vm)
  | .RETURNDATASIZE =>
    NEXT (since c .BYZANTIUM (ordinary (fun vm => .ret (BitVec.ofNat 256 vm.returnData.length)) vm))
  | .CODESIZE => NEXT (ordinary (fun _ => .ret (BitVec.ofNat 256 c.pCode.length)) vm)
  | .EXTCODESIZE => NEXT (ordinary (fun vm => do
      let size ← get_code_size ((← vm.sp 0).setWidth 160)
      .ret (size.setWidth 256)) vm)
  | .CALLDATACOPY => NEXT (COPY c.message.input vm)
  | .RETURNDATACOPY => NEXT (RETURNDATACOPY c vm)
  | .EXTCODEHASH =>
    NEXT (since c .CONSTANTINOPLE
      (ordinary (fun vm => do get_code_hash ((← vm.sp 0).setWidth 160)) vm))
  | .CODECOPY => NEXT (COPY c.pCode vm)
  | .EXTCODECOPY => NEXT (EXTCODECOPY vm)
  | .GASPRICE => NEXT (ordinary (fun _ => .ret c.tx.tx_gas_price) vm)
  | .BLOCKHASH =>
    NEXT (ordinary (fun vm => do get_block_hash ((← vm.sp 0).setWidth 64))
      (vm.setRunGas stepGas6))
  | .COINBASE => NEXT (ordinary (fun _ => .ret (ofAddr c.tx.block_coinbase)) vm)
  | .TIMESTAMP => NEXT (ordinary (fun _ => .ret (c.tx.block_timestamp.setWidth 256)) vm)
  | .NUMBER => NEXT (ordinary (fun _ => .ret (c.tx.block_number.setWidth 256)) vm)
  | .DIFFICULTY => NEXT (ordinary (fun _ => .ret c.tx.block_difficulty) vm)
  | .GASLIMIT => NEXT (ordinary (fun _ => .ret (c.tx.block_gas_limit.setWidth 256)) vm)
  | .CHAINID => NEXT (since c .ISTANBUL (ordinary (fun _ => .ret c.tx.chain_id) vm))
  | .SELFBALANCE => NEXT (since c .ISTANBUL (ordinary (fun _ => get_balance c.message.destination) vm))
  | .POP => NEXT (POP vm)
  | .PUSH n => CONTINUE (PUSH c n vm)
  | .JUMP => CONTINUE (JUMP c vm)
  | .JUMPI => CONTINUE (JUMPI c vm)
  | .DUP n => NEXT (DUP n vm)
  | .SWAP n => NEXT (SWAP n vm)
  | .SLOAD => NEXT (ordinary (fun vm => do get_storage c.message.destination (← vm.sp 0)) vm)
  | .SSTORE => NEXT (SSTORE c vm)
  | .PC => NEXT (ordinary (fun vm => .ret (BitVec.ofNat 256 vm.PC)) vm)
  | .MSIZE => NEXT (ordinary (fun vm => .ret (BitVec.ofNat 256 vm.mem.length)) vm)
  | .GAS => NEXT (ordinary (fun vm => .ret (BitVec.ofNat 256 vm.io_gas)) vm)
  | .JUMPDEST => NEXT (JUMPDEST vm)
  | .INVALID => .stop .InvalidInstruction
  | .PUSHC => .stop .BadInstruction
  | .JUMPC => .stop .BadInstruction
  | .JUMPCI => .stop .BadInstruction
  | .BAD => .stop .BadInstruction

def step (c : Context) (vm : VM) : Prog Round := do
  let (op, vm) ← fetchInstruction c vm
  interpretCases c vm op

/-- mirrors evm/libaleth-interpreter/VM.cpp:237-248, VMOpt.cpp:160-164 -/
def Context.new (rev : Revision) (message : EvmcMessage) (tx : TxContext) (pCode : Bytes)
    (keccak256 : Bytes → Word) : Context :=
  let (code, jumpDests) := optimize pCode
  { rev, message, tx, pCode, code, jumpDests, keccak256 }

/-- The machine of a message, before its first round. -/
def start (message : EvmcMessage) : VM where
  io_gas := message.gas.toNat
  PC := 0
  stack _ := 0
  SP := stackLimit
  SPP := stackLimit
  runGas := 0
  newMemSize := 0
  copyMemSize := 0
  mem := []
  returnData := []

/-- mirrors evm/libaleth-interpreter/VM.cpp:237-256 -/
def exec (c : Context) (fuel : Nat) : Prog (Option (VM × Bytes)) :=
  Asks.loop (step c) fuel (start c.message)

/-- evm/evmc/evmc.h:335-412 -/
structure EvmcResult where
  status_code : Status
  gas_left : BitVec 64
  output : Bytes
  deriving DecidableEq

/-- An array access outside of its array could do anything.
mirrors evm/libaleth-interpreter/VM.cpp:28-100 -/
def execute : Except VMException (VM × Bytes) → EvmcResult
  | .ok (vm, output) => ⟨.evmc_success, BitVec.ofNat 64 vm.io_gas, output⟩
  | .error (.RevertInstruction io_gas output) => ⟨.evmc_revert, BitVec.ofNat 64 io_gas, output⟩
  | .error .InvalidInstruction => ⟨.evmc_invalid_instruction, 0, []⟩
  | .error .BadInstruction => ⟨.evmc_undefined_instruction, 0, []⟩
  | .error .OutOfStack => ⟨.evmc_stack_overflow, 0, []⟩
  | .error .StackUnderflow => ⟨.evmc_stack_underflow, 0, []⟩
  | .error .BufferOverrun => ⟨.evmc_invalid_memory_access, 0, []⟩
  | .error .OutOfGas => ⟨.evmc_out_of_gas, 0, []⟩
  | .error .BadJumpDestination => ⟨.evmc_bad_jump_destination, 0, []⟩
  | .error .DisallowedStateChange => ⟨.evmc_static_mode_violation, 0, []⟩
  | .error .undefined => ⟨.evmc_internal_error, 0, []⟩

end Diode.L4.VM
