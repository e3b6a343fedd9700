import Practicum.Riscv.Instr

/-!
# The run-time library

The functions that compiled programs call: printing and reading, concatenation and comparison of
lists, and the messages with which a program ends in failure. Values are words; a list or a string
is the address of its length, which its elements follow.
-/

/-! ## Writing assembly programs -/

namespace Practicum.Riscv.Assembly

def noteOf (s : String) : Option String :=
  if s = "" then none else some s

def instr (i : Instr) (note : String) : Line :=
  .instr i (noteOf note)

def blank : Line :=
  .comment none

def remark (s : String) : Line :=
  .comment (noteOf s)

def label (name : String) : Line :=
  .label name

def li (rd : Register) (n : Int) (note : String := "") : Line :=
  instr (.constant .li rd { value := n }) note

def mv (rd rs : Register) (note : String := "") : Line :=
  instr (.unary .mv rd rs) note

def addi (rd rs : Register) (n : Int) (note : String := "") : Line :=
  instr (.immediate .addi rd rs { value := n }) note

def slti (rd rs : Register) (n : Int) (note : String := "") : Line :=
  instr (.immediate .slti rd rs { value := n }) note

def reg (op : RegOp) (rd rs1 rs2 : Register) (note : String := "") : Line :=
  instr (.register op rd rs1 rs2) note

def lw (rd base : Register) (offset : Int) (note : String := "") : Line :=
  instr (.load .lw rd base { value := offset }) note

def lb (rd base : Register) (offset : Int) (note : String := "") : Line :=
  instr (.load .lb rd base { value := offset }) note

def sw (source base : Register) (offset : Int) (note : String := "") : Line :=
  instr (.store .sw source base { value := offset }) note

def sb (source base : Register) (offset : Int) (note : String := "") : Line :=
  instr (.store .sb source base { value := offset }) note

def branch (op : BranchOp) (rs1 rs2 : Register) (target : String) (note : String := "") : Line :=
  instr (.branch op rs1 rs2 (.label target)) note

def jump (target : String) (note : String := "") : Line :=
  instr (.jump (.label target)) note

def call (target : String) (note : String := "") : Line :=
  instr (.jumpLink .ra (.label target)) note

def ecall (note : String := "") : Line :=
  instr (.plain .ecall) note

def ret : Line :=
  instr (.plain .ret) ""

end Practicum.Riscv.Assembly

namespace Practicum.Riscv.Runtime

open Riscv Register Assembly

def exit (code : Int) : List Line :=
  [blank, remark "Exit program", li a0 code, li a7 93, ecall]

def printDigit (position : Int) : List Line :=
  [reg .rem t0 t1 t2, addi t0 t0 48, slti t3 t1 1, reg .add t6 t6 t3, sb t0 sp position,
    reg .div t1 t1 t2]

def printInt : List Line :=
  [label "_print_int", addi sp sp (-12), mv t1 a0, li t2 10, slti t6 t1 0, slti t6 t1 0, li t5 2,
    reg .mul t6 t5 t6, li t5 1, reg .sub t5 t5 t6, reg .mul t1 t5 t1, mv t6 zero]
  ++ [10, 9, 8, 7, 6, 5, 4, 3, 2].flatMap printDigit
  ++ [reg .rem t0 t1 t2, addi t0 t0 48, slti t3 t1 1, reg .slt t4 zero a0, reg .slt t5 a0 zero,
    reg .or t4 t4 t5, reg .and t3 t3 t4, reg .add t6 t6 t3, sb t0 sp 1, reg .div t1 t1 t2]
  ++ [slti t5 t5 (-1), reg .add t6 t6 t5, li t5 45, reg .add t4 sp t6, sb t5 t4 0, li t4 (-1),
    reg .slt t3 t4 a0, reg .add t6 t6 t3]
  ++ [li t0 10, sb t0 sp 11, li a0 1, mv a1 sp, reg .add a1 a1 t6, li a2 12, reg .sub a2 a2 t6,
    li a7 64, ecall, addi sp sp 12, ret]

def charsOnStack : Int → List Char → List Line
  | _, [] => []
  | k, c :: cs => li t0 c.toNat :: sb t0 sp k :: charsOnStack (k + 1) cs

def stackRoom (length : Nat) : Int :=
  length + (4 - (length : Int)) % 4

def textOnStack (text : String) : List Line :=
  addi sp sp (-stackRoom text.length) :: charsOnStack 0 text.toList

def printText (text : String) : List Line :=
  textOnStack text
  ++ [li a0 1, mv a1 sp, li a2 text.length, li a7 64, ecall, addi sp sp (stackRoom text.length)]

def truthTexts : String := "False\n\x00True\n\x00"

def printBool : List Line :=
  [label "_print_bool"] ++ textOnStack truthTexts
  ++ [li t1 7, reg .sltu t2 zero a0, reg .mul t1 t1 t2, reg .add t1 t1 sp, li t3 6,
    reg .sltu t4 zero a0, reg .sub t4 t3 t4, li a0 1, mv a1 t1, mv a2 t4, li a7 64, ecall,
    addi sp sp (stackRoom truthTexts.length), ret]

def printStr : List Line :=
  [label "_print_str",
    addi t0 a0 0 "Get address of string object",
    lw t2 t0 0 "Load length of string",
    li t1 0 "Set loop counter to zero",
    reg .sub sp sp t2 "Expand stack pointer by number of string elements",
    addi sp sp (-1) "Expand stack pointer for newline",
    branch .beq t1 t2 "_print_str_loop_finished",
    label "_print_str_loop_header",
    li t6 4 "Number of bytes per element",
    reg .mul t3 t1 t6 "Distance from pointer in bytes",
    reg .add t4 t0 t3 "The address of the element in the string",
    lw t5 t4 4,
    reg .add t4 sp t1 "The address of the element on the stack",
    sb t5 t4 0 "Store character on stack",
    addi t1 t1 1 "Increment loop counter",
    branch .bne t1 t2 "_print_str_loop_header" "Continue loop",
    label "_print_str_loop_finished",
    reg .add t4 sp t1 "The address of the element on the stack",
    li t5 10 "Store newline character in output string",
    sb t5 t4 0 "Store character on stack",
    li a0 1 "Print to stdout",
    mv a1 sp "syscall argument: the start address is the stack pointer",
    addi t3 t2 1 "Make room for newline",
    mv a2 t3 "syscall argument: length of the string",
    li a7 64 "Request the print system call",
    ecall "Trigger the system call",
    addi sp sp 1 "Free the stack for newline",
    reg .add sp sp t2 "Free the stack",
    ret]

def input : List Line :=
  [label "_input", addi sp sp (-1024), sw ra sp 1020, li a0 0, mv a1 sp, li a2 1020, li a7 63,
    ecall, li t1 4, mv t4 a0, addi t4 t4 (-1), reg .mul a0 a0 t1, reg .add a0 a0 t1,
    call "_malloc" "Allocate memory for new list",
    li t1 4, sw t4 a0 0, li t5 0, branch .beq t4 t5 "_input_loop_finished",
    label "_input_loop_header",
    reg .add t3 sp t5, lb t6 t3 0, reg .mul t3 t5 t1, reg .add t3 a0 t3, sw t6 t3 4, addi t5 t5 1,
    branch .bne t4 t5 "_input_loop_header",
    label "_input_loop_finished",
    lw ra sp 1020, addi sp sp 1024, ret]

def listConcat : List Line :=
  [label "_list_concat",
    addi sp sp (-24) "Reserve stack space",
    lw t0 a0 0 "Load length of list a",
    lw t1 a1 0 "Load length of list b",
    reg .add t2 t0 t1 "Compute length of overall list",
    li t3 4 "Load size of a word in bytes",
    reg .mul t4 t2 t3 "Compute amount of storage for list elements",
    addi t4 t4 4 "Also consider space needed to store list size",
    sw ra sp 0 "Save return address",
    sw t0 sp 4 "Save length of list a",
    sw t1 sp 8 "Save length of list b",
    sw t2 sp 12 "Save length of new list",
    sw a0 sp 16 "Save base ptr of list a",
    sw a1 sp 20 "Save base ptr of list b",
    addi a0 t4 0,
    call "_malloc" "Allocate memory for new list",
    lw ra sp 0 "Restore return address",
    lw t0 sp 4 "Restore length of list a",
    lw t1 sp 8 "Restore length of list b",
    lw t2 sp 12 "Restore length of new list",
    lw t3 sp 16 "Restore base ptr of list a",
    lw t4 sp 20 "Restore base ptr of list b",
    sw t2 a0 0 "Store length of new list in list",
    li t5 0 "Set loop counter",
    addi t6 a0 0,
    branch .beq t0 zero "_list_concat_repeat_first_end",
    label "_list_concat_repeat_first",
    addi t5 t5 1,
    addi t3 t3 4,
    addi t6 t6 4,
    lw t2 t3 0 "Load list element from a",
    sw t2 t6 0 "Store list element in new list",
    branch .bne t5 t0 "_list_concat_repeat_first",
    label "_list_concat_repeat_first_end",
    li t5 0 "Set loop counter",
    branch .beq t1 zero "_list_concat_repeat_second_end",
    label "_list_concat_repeat_second",
    addi t5 t5 1,
    addi t4 t4 4,
    addi t6 t6 4,
    lw t2 t4 0 "Load list element from a",
    sw t2 t6 0 "Store list element in new list",
    branch .bne t5 t1 "_list_concat_repeat_second",
    label "_list_concat_repeat_second_end",
    addi sp sp 24 "Free stack space",
    ret]

def strEq : List Line :=
  [label "_str_eq",
    lw t0 a0 0 "Load length of first string",
    lw t1 a1 0 "Load length of second string",
    branch .bne t0 t1 "_str_eq_return_false" "return false if length are not equal",
    branch .beq t0 zero "_str_eq_return_true" "return true if both length are equal to 0",
    addi t2 a0 4 "First string index iterator",
    addi t3 a1 4 "Second string index iterator",
    li t5 4 "Size of an integer",
    reg .mul t5 t0 t5 "Size of the strings in bytes",
    reg .add t4 a0 t5 "First string iterator last element",
    addi t4 t4 4 "First string end iterator",
    label "_str_eq_loop_begin",
    lw t5 t2 0 "Get the first string character",
    lw t6 t3 0 "Get the first string character",
    branch .bne t5 t6 "_str_eq_return_false" "If the characters are different, return false",
    addi t2 t2 4,
    addi t3 t3 4,
    branch .blt t2 t4 "_str_eq_loop_begin" "If we are not at the end of the string, continue",
    label "_str_eq_return_true",
    li a0 1,
    ret,
    label "_str_eq_return_false",
    li a0 0,
    ret]

def failure (name message : String) : List Line :=
  [label name] ++ printText message ++ exit 1

def library : List Line :=
  printInt ++ printBool ++ printStr ++ input ++ listConcat ++ strEq
  ++ failure "_error_len_none" "TypeError: object of type 'NoneType' has no len()"
  ++ failure "_list_index_oob" "IndexError: list index out of range"
  ++ failure "_list_index_none" "TypeError: 'NoneType' object is not subscriptable"
  ++ failure "_error_div_zero" "DivByZero: Division by zero"

end Practicum.Riscv.Runtime
