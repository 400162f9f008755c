import Lineage.Text.CharSet

/-!
The decimal digits and other numerals past ASCII (Unicode 14).
-/

namespace Lineage.Text

/-- Decimal digits past ASCII. -/
def decimalSet : CharSet :=
  .ofTable
    ["19c 9;3r 9;5j 9;bh 9;3b 9;3b 9;3b 9;3b 9;3b 9;3b 9;3b 9;3b 9;3b 9;2p 9;3b 9;1z 9;7r 9;1z 9;",
     "1fr 9;13 9;8d 9;3l 9;4n 9;7 9;53 9;2f 9;3r 9;7 9;r7r 9;iv 9;13 9;5j 9;n 9;2f 9;bb 9;gev 9;",
     "13b 9;1on 9;ml 9;3l 9;1p 9;41 9;7r 9;9j 9;3b 9;af 9;2v 9;2v 9;br 9;2v 9;l3 9;6v 9;1z 9;",
     "f5j 9;2f 9;3r 9;lf9 1d;1tt 9;br 9;193 9;3o7 9;"]

/-- Numerals past ASCII that are no decimal digits and start no identifier. -/
def numeralSet : CharSet :=
  .ofTable
    ["4y 1;6 0;3 2;jg 0;1a2 5;ah 5;3d 2;3q 6;62 6;i 8;57 0;3k 0;3b 9;ty j;vo 9;dd 0;1au 0;4 5;7 9;",
     "5j f;16 0;k7 1n;27 l;hj t;12i 0;8i 0;o3 3;3v 9;v 7;2 e;x 9;14 e;n75 5;gmh 5;bb 1;39 0;2 0;",
     "2 0;2 0;2 0;2 0;2 0;2 0;80 1;a0 18;1u 3;i 1;9i q;11 3;111 7;q 6;14 8;24 4;n 5;4h 1;3 f;3 19;",
     "1t 8;1h 1;v 2;24 4;2x 7;p 7;16 6;97 5;9t u;4f 9;17 3;35 6;3r j;ak j;11i 1;bz 8;o8 i;no k;",
     "ex3 6;m7 m;jt6 j;31 o;47j 8;pu 1m;2 2;2 3;25 18;2 e;qr c;"]

end Lineage.Text
