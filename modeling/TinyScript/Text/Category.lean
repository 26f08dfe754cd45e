import TinyScript.Text.Stripe

/-!
# General categories

The general categories of Unicode 15 with their code points, and the groups that are named by the first
letter of their members.
-/

namespace TinyScript.Text.Category

def upperLetter : List Stripe := stripes
  ["41-19 66-16 2-6 22-36/2 3-E/2 3-2C/2 2-1 2 2 4-1 2 2-1 2-2 3-3 2-1 2-2 4-1 2-1 2 2 2-1 2 3 2-1 2-2 2 2-1",
   "4 8-9/3 2-C/2 3-10/2 3 3 2-2 2-38/2 8-1 2-1 3 2-3 2-6/2 122 2 4 9 7 2-2 2 2-1 2-10 2-8 24 3-2 4-16/2 6 3",
   "2-1 3-32 31-20/2 A-34/2 2-1 2-A/2 3-5E/2 3-25 B4A-25 2 6 2D3-55 89B-2A 3-2 141-94/2 A-60/2 A-7 9-5 B-7",
   "9-7 9-5 C-6/2 9-7 49-3 D-3 D-3 D-4 C-3 107 5 4-2 3-2 3 4-4 7-4/2 2-3 3-3 B-1 6 3E A7D-2F 31 2-2 3-4/2",
   "2-3 2 3 9-2 2-60/2 9 2 5 794E-2C/2 14-1A/2 88-C/2 4-3C/2 B 2 2-1 2-6/2 5 2 3 2 4-12/2 2-4 2-4 2-C/2 2-3",
   "2 7 6 2 1D 572C-19 4C6-27 89-23 9D-A 2-E 2-6 2-1 6EB-32 BEE-1F 5581-1F 65A1-19 1B-19 1B-19 1B 2-1 3 3-1",
   "3-3 2-7 1B-19 1B-1 2-3 3-7 2-6 1C-1 2-3 2-4 2 4-6 1C-19 1B-19 1B-19 1B-19 1B-19 1B-19 1F-18 22-18 22-18",
   "22-18 22-18 22 1136-21"]

def lowerLetter : List Stripe := stripes
  ["61-19 3B 2A-17 2-7 2-34/2 2-1 2-C/2 2-1 2-2C/2 3 2 2-2 3 2 3 4-1 5 3 4-2 3 3-4/2 3 2-1 2 3 4 2 3-1 3-2",
   "7-6/3 2-C/2 2-1 2-E/2 2-1 3 2 4-38/2 2-6 3 3-1 2 5-6/2 2-44 2-1A C2 2 4 4-2 13 1C-22 2-1 4-2 2-14/2 2-4",
   "2 3 3-1 34-2F 2-20/2 A-34/2 3-A/2 2-1 2-5E/2 31-28 B48-2A 3-2 2F9-5 883-8 78-2B 40-C 2-21 67-92/2 2-8",
   "2-5E/2 2-8 9-5 B-7 9-7 9-5 B-7 9-7 9-D 3-7 9-7 9-7 9-4 2-1 7 4-2 2-1 9-3 3-1 9-7 B-2 2-1 113 4-1 4",
   "1C-A/5 3-1 9-3 5 36 AAC-2F 2 4-1 2-4/2 5 2-1 2-5 6-60/2 2-1 8 2 5 D-25 2 6 7914-2C/2 14-1A/2 88-A/2 2-2",
   "2-3C/2 2-7 2 2 3-8/2 5 2 3 2-2 2-12/2 6 6-E/2 5 2 7-8/2 1D 4 336-2A 6-8 8-4F 4F41-6 D-4 42A-19 4CE-27",
   "89-23 9C-A 2-E 2-6 2-1 704-32 BCE-1F 5581-1F 659B-19 1B-6 2-11 1B-19 1B-3 2 2-6 2-A 1B-19 1B-19 1B-19",
   "1B-19 1B-19 1B-19 1B-19 1B-19 1B-1B 1D-18 2-5 1B-18 2-5 1B-18 2-5 1B-18 2-5 1B-18 2-5 2 735-9 2-13 7-5",
   "9F8-21"]

def titleLetter : List Stripe := stripes
  ["1C5-6/3 27 1D96-7 9-7 9-7 D 10 30"]

def modifierLetter : List Stripe := stripes
  ["2B0-11 5-B F-4 8 2 86 6 1DF E7 A5-1 10E-1 5 20 A 4 A1 A8 4D5 80 236 6DB 6C 264 1D1-5 AF-3E E 23-24 2B2 E",
   "11-C BE0-1 F2 C0 1D6 2C-4 6 62-1 5E-2 6F17 4E3-5 10F 73 1D-1 7A-8 51 18 6A-2 4-1 1D6 17 8A 6D 16-1 68-3",
   "A 5407 2E-1 7E1-5 2-29 2-8 6386-3 450-C 41-1 2 400D-3 2-6 2-1 3032-3D CA-6 3AE 460"]

def otherLetter : List Stripe := stripes
  ["AA 10 101 5-3 D1 33C-1A 5-3 2E-1F 2-9 24-1 2-62 2 19-1 B-2 3 11 2-1D 1E-58 C 19-20 16-15 2B-18 8-A 6-17",
   "2-5 12-28 3C-35 4 13 8-9 11-E 5-7 3-1 3-15 2-6 2 4-3 4 11 E-1 2-2 F-1 B 9-5 5-1 3-15 2-6 2-1 2-1 2-1",
   "20-3 2 14-2 11-8 2-2 2-15 2-6 2-1 2-4 4 13 10-1 18 C-7 3-1 3-15 2-6 2-1 2-4 4 1F-1 2-2 10 12 2-5 4-2 2-3",
   "4-1 2 2-1 4-1 4-2 4-B 17 35-7 2-2 2-16 2-F 4 1B-2 3 3-1 1F 5-7 2-2 2-16 2-9 2-4 4 20-1 2-1 10-1 12-8 2-2",
   "2-28 3 11 6-2 9-2 19-5 6-11 4-17 2-8 2 3-6 3B-2F 2-1 D-5 3C-1 2 2-4 2-17 2 2-9 2-1 A 3-4 18-3 21 40-7",
   "2-23 1C-4 74-2A 15 11-5 5-3 4 4-1 8-2 5-C D 72-148 2-3 3-6 2 2-3 3-28 2-3 3-20 2-3 3-6 2 2-3 3-E 2-38",
   "2-3 3-42 26-F 72-26B 3-10 2-19 6-4A 7-7 8-11 E-12 F-11 F-C 2-2 10-33 29 44-22 2-34 8-4 3-21 2 6-45 B-1E",
   "32-1D 3-4 C-2B 5-19 37-16 A-34 B1-2E 12-7 37-1D E-1 B-2B 1B-23 2A-2 B-1D 72-3 2-5 2-1 4 43B-3 BF8-37",
   "19-16 A-6 2-6 2-6 2-6 2-6 2-6 2-6 2-6 228 36 5-55 9 2-59 5 6-2A 2-5D 12-1F 31-F 201-19BF 41-5214 2-476",
   "44-27 9-10B 5-F B-1 43 32-45 AA 68 4-6 2-2 2-3 2-16 1E-33 F-31 3F-5 4 2-1 C-1B B-16 1A-1C 8-2E 2E-4 3-8",
   "B-4 2-28 18-2 2-7 15-F 2-5 4 4-31 2 4-1 3-4 3 2 19-1 4-A 8 F-5 3-5 3-5 A-6 2-6 92-22 1E-2BA3 D-16 5-30",
   "2105-16D 3-69 44 2-9 2-C 2-4 2 2-1 2-1 2-6B 22-16A 13-3F 3-35 29-B 75-4 2-86 6A-9 2-2C 3-1E 4-5 3-5 3-5",
   "3-2 24-B 2-19 2-12 2-1 2-E 3-D 23-7A 186-1C 4-30 30-1F E-13 2-7 7-25 B-1D 3-23 5-7 81-4D 63-27 9-33",
   "9D-136 A-15 B-7 99-5 3 2-2B 2-1 4 3-16 B-16 A-1E 42-12 2-1 B-15 B-19 47-37 7-1 41 10-3 2-2 2-1C 2B-1C",
   "4-1C 24-7 2-1B 1C-35 B-15 B-12 E-11 6F-48 B8-23 15D-29 7-1 4F-1C B 9-15 2B-11 2F-14 1C-16 D-34 3A-1 3",
   "E-2C 21-18 1B-23 1E 3 9-22 4 D-2F F-3 16 2 24-11 2-18 14-1 40-6 2 2-3 2-E 2-9 8-2E 27-7 3-1 3-15 2-6 2-1",
   "2-4 4 13 D-4 9F-34 13-3 15-2 1F-2F 15-1 2 B9-2E 2A-3 25-2F 15 3C-2A E 48-1A 26-6 BA-2B D4-7 3 3-7 2-1",
   "2-17 10 2 5F-7 3-26 11 2 1D B-27 8 16 C-2D 14 13-48 108-8 2-24 12 32-1D 71-6 2-1 2-25 16 1A-5 2-1 2-1F F",
   "148-12 10 2-C 2-21 7D 50-399 E7-C3 A4D-60 10-42F 12-5 FBA-246 21BA-238 8-1E 12-4E 12-1D 13-2F 34-14 6-12",
   "371-4A 6 B0-17F7 9-4D5 2B-8 22F8-122 10 1E-2 3 F-3 9-18B 905-6A 6-C 4-8 8-9 2271 1F6-2C 22 142-1D 13-2B",
   "1E5-1A 2F6-6 2-3 2-1 2-E 2-C4 53C-3 2-1A 2-1 2 3 2-9 2-3 2 2 7 5-4/2 2-2 2-1 2 3-8/2 2-1 2 3-3 2-6 2-3",
   "2-3 2 2-9 2-10 6-2 2-4 2-10 1145-A6DF 21-1039 7-DD 3-1681 F-1D30 C20-21D 5E3-134A 6-105F"]

def flatMark : List Stripe := stripes
  ["300-6F 114-4 10A-2C 2 2-1 2-1 2 49-A 31-14 11 66-6 3-5 3-1 2-3 24 1F-1A 5C-A 3B-8 A 19-3 2-8 2-2 2-4",
   "2C-2 3D-7 2B-17 2-1F 38 2 5-7 5 4-6 B-1 1E 3B 5-3 9 15-1 1B 3-1 3A 5-1 5-1 3-2 4 1F-1 4 C-1 3A 5-4 2-1 5",
   "15-1 17-5 2 3B 3 2-3 9 8-1 C-1 1F 3E D 33 4 38 2-2 6-2 2-3 8-1 C-1 1E 3B 3 7 6-1 15-1 1D-1 3A-1 5-3 9",
   "15-1 1E 49 8-2 2 5B 3-6 D-7 63 3-8 C-6 4A-1 1C-4/2 38-D 2-4 2-1 6-A 2-23 A 67-3 2-5 2-1 3-1 1A-1 5-2",
   "11-3 E 3-1 7 10 2C0-2 3B3-2 1E-1 1F-1 1F-1 41-1 2-6 9 3-A A 2E-2 2 76-1 23 77-2 5-1 A 7-2 DC-1 3 3B 2-6",
   "2 2 3-7 7-9 3 31-D 2-F 32-3 31 2-4 2 6 29-8 D-1 21-3 3-1 2-2 39 2-1 4 2-2 3B-7 3-1 99-2 2-C 2-6 5 7 4-1",
   "C7-3F 2D1-C 5 4-B BFF-2 8E 61-1F 22B-3 6C-1 75D5 5-9 21-1 51-1 111 4 5 1A-1 6 98-1 1B-11 E 27-7 1A-A",
   "2F-2 31 3-3 3-1 28 44-5 3-1 3-1 D 9 30 34 2-2 3-1 6-1 2 2B-1 9 EF 3 5 4F31 2E2-F 11-F 3CE E3 96-4 687-2",
   "2-1 6-3 29-2 5 A6-1 23E-3 184-1 51-2 47-A 32-3 7C 37-E 2A 3-1 B-2 32-3 3-1 8 3E-2 25-4 2-7 3F D-1 35-8",
   "B-3 3 60-2 3 2-1 7 3 9E 4-7 16-1 3A-1 4 26-6 4-4 C4-7 3-2 2 18 55-5 2 5-1 2-1 EF-3 7-1 2-1 1C-1 56-7 3",
   "2-1 6B 2 3-5 2 66-2 3-3 2-4 104-8 2-1 101-1 2 5 91-3 3-1 5 21-9 29-5 3-3 9 A-5 3-2 2F-C 2-1 197-6 2-5 2",
   "53-15 3-6 2-1 2-1 7B-5 4 2-1 2-6 2 49-1 4 2 15C-1 C-1 35-4 6 2 14FE 7-E 369B-4 3C-6 419 40-3 52 4CB9-1",
   "1262-2D 3-16 221-2 12-7 3-6 1F-3 95-2 7BC-36 5-31 9 F 17-4 2-E 551-6 2-10 3-6 2-1 2-4 65 A1-6 178 3E-3",
   "1FD-3 3E1-6 6E-6 C17B6-EF"]

def spacingMark : List Stripe := stripes
  ["903 38 3-2 9-3 2-1 33-1 3B-2 7-1 3-1 B 2C 3B-2 43 3B-2 9 2-1 36-1 3B 2 7-1 3-1 B 67-1 2-1 4-2 2-2 B 2A-2",
   "3E-3 3E-1 3B 2-4 3-1 2-1 A-1 1D F-1 3B-2 6-2 2-2 B 2B-1 4C-2 7-7 13-1 14B-1 40 AC-1 5 7 3-1 1A-1 B-2 3-6",
   "16-1 3-5 3 B-2 679 1F 82 8-7 2-1 15B-3 3-2 5-1 2-5 E1-1 3B 2 A 2-1 9-5 92 31 6 2-4 2-1 3E 1F 5-1 3 3D",
   "3-2 2 4-1 31-7 9-1 AC 16 1337-1 77F4-1 3 59-1 33-F 8F-1 30 31-1 5-1 3-2 6F-1 3-1 19 2E 2 6E 3-1 6 EE-1",
   "2-1 2-1 2 6414 2 80 2E-2 5-1 74 19-1 3C 31-2 A-1 E 5E-2 4-1 2 AB-2 20-1 3B-1 2-3 3-1 3-2 A B-1 D2-2 9-1",
   "4 6B-2 7 2-3 3 EE-2 7-3 3 72-2 9-1 2 6E 2-1 7 6A-1 5 106-2 A F8-5 2-1 5 3 2 8F-2 9-3 5 55 1E-1 3F 198 F",
   "6B 8 3 D6-4 5-1 2 15F-1 D 31-1 9-1 2 5010-36 69-1 6174-1 7-5"]

def aroundMark : List Stripe := stripes
  ["488-1 1635 61F-3 2-2 858C-2"]

def decimalDigit : List Stripe := stripes
  ["30-9 627-9 87-9 C7-9 19D-9 77-9 77-9 77-9 77-9 77-9 77-9 77-9 77-9 77-9 61-9 77-9 47-9 117-9 47-9 747-9",
   "27-9 12D-9 81-9 A7-9 7-9 B7-9 57-9 87-9 7-9 89C7-9 2A7-9 27-9 C7-9 17-9 57-9 197-9 5317-9 587-9 887-9",
   "32D-9 81-9 3D-9 91-9 117-9 157-9 77-9 177-9 67-9 67-9 1A7-9 67-9 2F7-9 F7-9 47-9 1A7-9 4B07-9 57-9 87-9",
   "6C75-31 941-9 1A7-9 1F7-9 457-9 1297-9"]

def letterNumber : List Stripe := stripes
  ["16EE-2 A70-22 3-3 E7F 1A-8 F-2 76AC-9 5A51-34 1CD 9 87-4 202B-6E"]

def otherNumber : List Stripe := stripes
  ["B2-1 6 3-2 936-5 179-5 79-2 86-6 DA-6 12-8 1B2-9 436-13 474-9 1E1 696 4-5 7-9 C7-F 2A 2D7-3B 4F-15",
   "277-1D 56A 495-3 8B-9 1F-7 2-E 21-9 28-E 7571-5 58D2-2C 42-3 12-1 156-1A 25-3 535-7 1A-6 28-8 4C-4 17-5",
   "A1-1 3-F 3-2D 41-8 35-1 1F-2 4C-4 69-7 19-7 2A-6 14B-5 161-1E 9F-9 2B-3 71-6 87-13 17C-13 546-1 1AF-8",
   "368-12 354-14 4B87-6 31F-16 642A-13 D-13 6D-18 154F-8 3A2-3A 2-2 2-3 4D-2C 2-E 3C3-C"]

def connector : List Stripe := stripes
  ["5F 1FE0-1 14 DDDF-1 19-2 F0"]

def dash : List Stripe := stripes
  ["2D 55D 34 E42 406 80A-5 E02 3 20-1 5 1D 1BF 14 70 CD91-1 26 B AA FA0"]

def openBracket : List Stripe := stripes
  ["28 33 20 EBF 2 75F 97F 4 27 38 10 27B 2 1F 43F-C/2 51 21-8/2 195-14/2 41 2 22 426-6/2 1A 13-6/2 1AD-8/2",
   "4-6/2 3 CD22 D8 1E-E/2 4 12-4/2 AB 33 20 4 3"]

def closeBracket : List Stripe := stripes
  ["29 34 20 EBE 2 75F 9AA 38 10 27B 2 1F 43F-C/2 51 21-8/2 195-14/2 41 2 22 426-6/2 2D-6/2 1AD-8/2 4-6/2",
   "3-1 CD1F DA 1E-E/2 4 12-4/2 AB 34 20-6/3"]

def openQuote : List Stripe := stripes
  ["AB 1F6D 3-1 3 1A DC9 2 5 3 10 4"]

def closeQuote : List Stripe := stripes
  ["BB 1F5E 4 1D DC9 2 5 3 10 4"]

def otherPunctuation : List Stripe := stripes
  ["21-2 2-2 3 2 2-1 B-1 4-1 1C 45 6 F-1 8 2BF 9 1D3-5 2A 37-6/3 2D-1 15-1 2-1 E 2-2 4B-3 67 2C-D EA-2 37-E",
   "20 106-1 B 8D 79 7A 187 D 170 5B B-1 A9-E 2 71 4B-4 5-1 70-5 AC 265-8 306 7D-2 48-1 9E-2 2-2 26-5 2-3",
   "13A-1 D9-1 81-6 2-5 AD-6 1D-1 7E-3 3C-4 3F-1 41-7 C 343-1 9-7 9-8 3-3 3-2 4-A 2 2-9 C9B-3 2-1 71 90-1",
   "5-2 3 3-8 2-1 2 3-1 B-4 2-9 3-3 2 2-C 3-2 1AD-2 3A BE 7403-1 10E-2 64 B 74-5 17D-3 57-1 29-2 2 32-1 30",
   "62-C 11-1 7D-3 7F-1 11-1 FA 5225-6 3 17 15-1 3-3 4-2 2-3 8-2 7 2-1 96-2 2-2 3 2 2-1 B-1 4-1 1C 25 3-1",
   "19B-2 29D 31 19F 2E8 C8 20 111-8 27 71-6 43-6 5A-3 3B9-4 2D-3 BE-6 6E-1 2-3 7F-3 31-1 50-3 5 E 2-2 59-5",
   "6C 1A2-4 B-1 2 69 FB-16 6A-2 1D-C 4D 83-2 FD 109-2 9C 5D-7 54-2 2-4 5E-9 138-4 2B-1 286-1 4B-C B0 471-4",
   "B7D-1 3A7C-1 86 42-4 9 353-3 148 4CBD 1DE8-4 ED3-1"]

def mathSymbol : List Stripe := stripes
  ["2B 11-2 3E 2 2E 5 26 20 2FF 210-2 1A3C E 28-2 E-2 8C 28-4 7 45-4 6-1 5-6/3 8 20-1 3 2 20-10B 21-1 5B",
   "1F-18 29-5 1D6 A 37-7 70 151-4 3-1E B-F 101-82 17-3E 5-1F 3-101 31-14 3-5 CFDD 339 2-2 A5 11-2 3E 2 84",
   "7-3 D6D5 1A 20 1A 20 1A 20 1A 20 1A 172D-1"]

def currencySymbol : List Stripe := stripes
  ["24 7E-3 4EA 7C 1F3-1 1F3-1 8 F6 108 246 99C 8C5-20 8778 55C4 6D 9B DC-1 4-1 1FF7-3 C31F 9B1"]

def modifierSymbol : List Stripe := stripes
  ["5E 2 48 7 5 4 20A-3 D-D 6-6 2 2-10 76 F-1 503 1735 2-2 C-2 E-2 E-2 E-1 109D-1 7664-16 A-1 68-1 3D1 F-1",
   "5047-10 37C 2 A3 F418-4"]

def otherSymbol : List Stripe := stripes
  ["A6 3 5 2 3D2 10B-1 80-1 CF B 14-1 F8 204 176 83-5 2 85 D0 2A 188-2 10 2-2 3-5 15-4/2 86-7 2-5 2-1 6-3",
   "C6-1 2F1-9 2D4 2D3 9E-21 162-9 A-8 584-1 2-3 2-1 B 2-1 7-5 2-4/2 5 C-1 F 2-1 2 3B-1 A-4 3-3 2-1 2-1 2-6",
   "2-1E 3-1 2 2-1E 10D-7 5-13 3-6 3-50 2-1D 1A-27 7-44 1A-A 52-4D 17-B6 2-8 2-35 9-6E 2-F7 2D-2B 41-FF",
   "201-2F 16-1 7-26 3-1F 2-68 E6-5 166-1 2F-19 2-58 D-D5 1B-B 9 E-1 D 16-1 7-1 151-1 5-9 21-23 1D-1E C-1D 9",
   "10-1F B-26 10-13F 19C1-3F 5691-36 362-3 B-1 2 23E-2 52C7-F 80 2E-2 1E5 4 5-1 E-1 13A-8 3A-10 3-2 2-C 4",
   "30-2C 67B-1 250 C77 896-7 5-10 4B4B-3 6 5157 12B4-73 3D-F5 B-26 3-3B 6-2 17-1 8-1D 5-3C 16-41 4 BB-56",
   "4AA-1FF 38-3 33-7 2-D 2-1 6C9 B5D 82 2D2-2B 5-63 D-E 3-E 2-E 2-24 18-A0 39-1C E-2B 5-8 8-1 F-5 9B-FA",
   "6-2D7 5-10 4-C 4-76 5-5E 7-B 5 10-B 5-37 9-9 7-27 9-1D 3-1 4F-153 D-D 3-C 4-8 8-2D 2-6 9-D 5-8 8-8 8-92",
   "2-36"]

def spaceSeparator : List Stripe := stripes
  ["20 80 15E0 980-A 25 30 FA1"]

def lineSeparator : List Stripe := stripes
  ["2028"]

def paragraphSeparator : List Stripe := stripes
  ["2029"]

def control : List Stripe := stripes
  ["0-1F 60-20"]

def format : List Stripe := stripes
  ["AD 553-5 17 C1 32 181-1 51 F2C 7FD-4 1B-4 32-4 2-9 DE90 FA-2 10C2 10 2363-F 8861-3 14D0-7 C2E87 1F-5F"]

def surrogate : List Stripe := stripes
  ["D800-7FF"]

def privateUse : List Stripe := stripes
  ["E000-18FF E0701-FFFD 3-FFFD"]

/-- Every category by its two letters. -/
def table : List (String × List Stripe) :=
  [("Lu", upperLetter),
   ("Ll", lowerLetter),
   ("Lt", titleLetter),
   ("Lm", modifierLetter),
   ("Lo", otherLetter),
   ("Mn", flatMark),
   ("Mc", spacingMark),
   ("Me", aroundMark),
   ("Nd", decimalDigit),
   ("Nl", letterNumber),
   ("No", otherNumber),
   ("Pc", connector),
   ("Pd", dash),
   ("Ps", openBracket),
   ("Pe", closeBracket),
   ("Pi", openQuote),
   ("Pf", closeQuote),
   ("Po", otherPunctuation),
   ("Sm", mathSymbol),
   ("Sc", currencySymbol),
   ("Sk", modifierSymbol),
   ("So", otherSymbol),
   ("Zs", spaceSeparator),
   ("Zl", lineSeparator),
   ("Zp", paragraphSeparator),
   ("Cc", control),
   ("Cf", format),
   ("Cs", surrogate),
   ("Co", privateUse)]

/-- The code points of a category, or of all categories that begin with a letter. -/
def find? (name : Text) : Option (List Stripe) :=
  match table.find? fun e => Text.ofString e.1 = name with
  | some (_, stripes) => some stripes
  | none =>
    match table.filter fun e => (Text.ofString e.1).bytes.take 1 = name.bytes with
    | [] => none
    | group => some (group.flatMap Prod.snd)

end TinyScript.Text.Category
